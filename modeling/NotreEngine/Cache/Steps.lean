import NotreEngine.Cache.Capacity
import NotreEngine.ShieldedLru

/-!
# The steps inside the calls

Each call finds, evicts and commits slices one after the other. The log of these steps, with what
is resident and shielded after each, is a run of a recency list with a shield.
-/
namespace NotreEngine.Cache

open Recency Transition ShieldedLru

def Slice.pair (s : Slice) : Str × UInt32 := (s.tensor, s.expert)

/-- What is resident, and what is shielded. -/
def Index.shelf (c : Index) : State UInt64 Slice := ⟨c.recency, c.shield⟩

abbrev Step := Event UInt64 Slice (Str × UInt32) × State UInt64 Slice

variable (src : Source) (c : SliceCache)

def evictSteps : Nat → SliceCache → Nat → List Step
  | 0, _, _ => []
  | n + 1, c, bytes =>
    if c.used + bytes > c.hardCapBytes then
      match victim c with
      | some k =>
        match c.map k with
        | some e => (.evict k e.toSlice, (evict c k).shelf) :: evictSteps n (evict c k) bytes
        | none => evictSteps n (evict c k) bytes
      | none => []
    else []

def makeRoomSteps (bytes : Nat) : List Step := evictSteps c.lru.length c bytes

/-- A touch that reports a hit has found its key; one that reports a miss commits what it has
filled. -/
def touchSteps (k : UInt64) (s : Slice) (ptr : Option Nat) (srcOff : Nat) : List Step :=
  match touchLocked src c k s ptr srcOff with
  | some (c', true) => [(.hit k s.pair, c'.shelf)]
  | some (c', false) => makeRoomSteps c s.bytes ++ [(.load k s, c'.shelf)]
  | none => []

def touchEachSteps (tensor : Str) (destWindowBase srcBase bytes : Nat) :
    List UInt32 → SliceCache → List Step
  | [], _ => []
  | e :: es, c =>
    let s := windowSlice tensor destWindowBase bytes e
    let ptr := some (srcBase + e.toNat * bytes)
    touchSteps src c (key tensor e) s ptr 0 ++
      match touchLocked src c (key tensor e) s ptr 0 with
      | some (c, _) => touchEachSteps tensor destWindowBase srcBase bytes es c
      | none => []

def classifySteps (tensor : Str) (bytes : Nat) : List UInt32 → SliceCache → List Step
  | [], _ => []
  | e :: es, c =>
    let k := key tensor e
    match c.map k with
    | some entry =>
      (.hit k (tensor, e), (refreshHit c k entry).shelf) ::
        classifySteps tensor bytes es (refreshHit c k entry)
    | none => makeRoomSteps c bytes ++ classifySteps tensor bytes es (makeRoomLocked c bytes)

def commitSteps : List Miss → SliceCache → List Step
  | [], _ => []
  | m :: ms, c =>
    (.load m.k m.slice, (commitLocked c m.k m.slice).shelf) ::
      commitSteps ms (commitLocked c m.k m.slice)

def touchBatchAtSteps (tensor : Str) (b : Batch) (destWindowBase srcBaseOffset bytes : Nat) :
    List Step :=
  let (c₁, missList) :=
    classify tensor destWindowBase srcBaseOffset bytes b.uniq (countDedup c b)
  classifySteps tensor bytes b.uniq (countDedup c b) ++
    match fillMisses src missList c₁ with
    | some c₂ => commitSteps missList c₂
    | none => []

def commitJobSteps (m : Miss) : List Step :=
  match c.map m.k with
  | some _ => []
  | none => makeRoomSteps c m.slice.bytes ++ [(.load m.k m.slice, (commitJob c m).shelf)]

def commitJobsSteps : List Miss → SliceCache → List Step
  | [], _ => []
  | m :: ms, c => commitJobSteps c m ++ commitJobsSteps ms (commitJob c m)

def prefetchBatchAtSteps (tensor : Str) (b : Batch) (destWindowBase srcBaseOffset bytes : Nat) :
    List Step :=
  match src.backend with
  | none => []
  | some bk =>
    let jobs := absentJobs c tensor b destWindowBase srcBaseOffset bytes
    if jobs.all fun m => bk.read m.off m.slice.bytes then
      commitJobsSteps jobs (readJobs bk jobs c)
    else []

def Call.steps : Call → List Step
  | .touch t e dest ptr bytes => touchSteps src c (key t e) ⟨t, e, dest, bytes⟩ (some ptr) 0
  | .touchAt t e dest off bytes => touchSteps src c (key t e) ⟨t, e, dest, bytes⟩ none off
  | .touchBatch t b base ptr bytes =>
    touchEachSteps src t base ptr bytes b.uniq (countDedup c b)
  | .touchBatchAt t b base off bytes => touchBatchAtSteps src c t b base off bytes
  | .prefetchBatchAt t b base off bytes => prefetchBatchAtSteps src c t b base off bytes

/-- The steps of all the calls of a run. -/
def steps : SliceCache → List ((Source × Call) × SliceCache) → List Step
  | _, [] => []
  | c, ((src, call), c') :: tr => call.steps src c ++ steps c' tr

def Call.tensor : Call → Str
  | .touch t _ _ _ _ => t
  | .touchAt t _ _ _ _ => t
  | .touchBatch t _ _ _ _ => t
  | .touchBatchAt t _ _ _ _ => t
  | .prefetchBatchAt t _ _ _ _ => t

def Call.experts : Call → List UInt32
  | .touch _ e _ _ _ => [e]
  | .touchAt _ e _ _ _ => [e]
  | .touchBatch _ b _ _ _ => b.experts
  | .touchBatchAt _ b _ _ _ => b.experts
  | .prefetchBatchAt _ b _ _ _ => b.experts

def Call.bytes : Call → Nat
  | .touch _ _ _ _ bytes => bytes
  | .touchAt _ _ _ _ bytes => bytes
  | .touchBatch _ _ _ _ bytes => bytes
  | .touchBatchAt _ _ _ _ bytes => bytes
  | .prefetchBatchAt _ _ _ _ bytes => bytes

/-- A step for one of these experts of the tensor, under the key of the pair and with a slice of
that size. -/
def Asked (tensor : Str) (es : List UInt32) (bytes : Nat) :
    Event UInt64 Slice (Str × UInt32) → Prop
  | .hit k p => k = key p.1 p.2 ∧ p.1 = tensor ∧ p.2 ∈ es
  | .evict _ _ => True
  | .load k v => k = key v.tensor v.expert ∧ v.tensor = tensor ∧ v.expert ∈ es ∧ v.bytes = bytes

/-- The steps are a run that ends where the calls do. -/
structure Leads (c c' : Index) (tr : List Step) : Prop where
  cap : c'.hardCapBytes = c.hardCapBytes
  trace : (system Slice.bytes c.hardCapBytes kShieldEntries).Trace c.shelf tr
  final : final c.shelf tr = c'.shelf

variable {src c} {c' c'' : SliceCache} {k : UInt64} {e : Entry} {s : Slice} {ptr : Option Nat}
  {off bytes : Nat} {found : Bool} {tr tr' : List Step}

theorem Leads.refl (c : Index) : Leads c c [] :=
  ⟨rfl, .nil _, rfl⟩

theorem Leads.append {c c' c'' : Index} (h : Leads c c' tr) (h' : Leads c' c'' tr') :
    Leads c c'' (tr ++ tr') := by
  refine ⟨h'.cap.trans h.cap, h.trace.append ?_, ?_⟩
  · rw [h.final, ← h.cap]
    exact h'.trace
  · rw [final_append, h.final, h'.final]

theorem leads_one {c c' : Index} {ev : Event UInt64 Slice (Str × UInt32)}
    (hcap : c'.hardCapBytes = c.hardCapBytes)
    (hs : step Slice.bytes c.hardCapBytes kShieldEntries c.shelf ev c'.shelf) :
    Leads c c' [(ev, c'.shelf)] :=
  ⟨hcap, .cons hs (.nil _), rfl⟩

section Room

theorem leads_evict {l : List Node} {m : Node} (h : c.Wf) (hl : c.lru = l ++ [m])
    (he : c.map m.key = some e) :
    Leads c.toIndex (evict c m.key).toIndex
      [(.evict m.key e.toSlice, (evict c m.key).shelf)] := by
  obtain ⟨e', he', _, hrec⟩ := evict_last h hl
  obtain rfl := Option.some.inj (he.symm.trans he')
  have hev := evict_of_resident he
  apply leads_one
  · rw [hev]
  · exact ⟨hrec, by rw [Index.shelf, hev]; rfl⟩

theorem leads_evictSteps (n : Nat) (h : c.Wf) :
    Leads c.toIndex (makeRoomLoop n c bytes).toIndex (evictSteps n c bytes) := by
  induction n generalizing c with
  | zero => exact Leads.refl _
  | succ n ih =>
    rw [makeRoomLoop, evictSteps]
    split
    · rw [victim_eq h]
      rcases List.eq_nil_or_concat c.lru with hl | ⟨l, m, hl⟩
      · rw [hl]
        exact Leads.refl _
      · rw [List.concat_eq_append] at hl
        obtain ⟨e, he, _⟩ := evict_last h hl
        rw [hl, List.getLast?_concat, Option.map_some]
        simp only [he]
        exact (leads_evict h hl he).append (ih (wf_evict h he))
    · exact Leads.refl _

theorem leads_makeRoom (h : c.Wf) (bytes : Nat) :
    Leads c.toIndex (makeRoomLocked c bytes).toIndex (makeRoomSteps c bytes) :=
  leads_evictSteps _ h

theorem evictSteps_evict (n : Nat) : ∀ x ∈ evictSteps n c bytes, ∃ k v, x.1 = .evict k v := by
  induction n generalizing c with
  | zero => simp [evictSteps]
  | succ n ih =>
    rw [evictSteps]
    split
    · split
      · split
        · exact List.forall_mem_cons.mpr ⟨⟨_, _, rfl⟩, ih⟩
        · exact ih
      · simp
    · simp

theorem makeRoomSteps_loads : ∀ x ∈ makeRoomSteps c bytes, ∀ i, ¬LoadsKey i x := by
  intro x hx i
  obtain ⟨k, v, hev⟩ := evictSteps_evict _ x hx
  simp [LoadsKey, hev]

end Room

section Commit

theorem dropOldest_eq_drop (ks : List UInt64) (a : Finset UInt64) :
    dropOldest ks a = drop (kShieldEntries / 2) ks a := by
  induction ks generalizing a with
  | nil => rfl
  | cons k ks ih =>
    rw [dropOldest, drop]
    split
    · exact ih _
    · rfl

theorem commitLocked_shield (h : c.Wf) (hk : c.map k = none) :
    (commitLocked c k s).shield =
      trim kShieldEntries (keys (commitLocked c k s).recency) (insert k c.shield) := by
  have hins : (insertEntry c k s).shield = c.shield := by
    unfold insertEntry
    split <;> rfl
  rw [(wf_commitLocked h hk).keys_recency, commitLocked, shieldKey, hins]
  simp only [trim, dropOldest_eq_drop, ← List.map_reverse]

theorem leads_commit (h : c.Wf) (hk : c.map k = none) :
    Leads c.toIndex (commitLocked c k s).toIndex
      [(.load k s, (commitLocked c k s).shelf)] := by
  refine leads_one commitLocked_hardCapBytes ⟨h.absent_iff.mpr hk, ?_, ?_⟩
  · exact recency_commitLocked h hk
  · exact commitLocked_shield h hk

theorem leads_refreshHit {p : Str × UInt32} (h : c.Wf) (he : c.map k = some e) :
    Leads c.toIndex (refreshHit c k e).toIndex [(.hit k p, (refreshHit c k e).shelf)] := by
  refine leads_one rfl ⟨h.mem_keys_iff.mpr ⟨e, he⟩, ?_⟩
  rw [Index.shelf, recency_refreshHit h he]
  rfl

/-- What makes room goes before the slice that needs it comes. -/
theorem settled_makeRoom {w : State UInt64 Slice} (h : c.Wf) (hk : c.map k = none) :
    Settled (makeRoomSteps c bytes ++ [(.load k s, w)]) := by
  refine settled_load makeRoomSteps_loads ?_ settled_nil
  intro x hx hev
  have hin := mem_keys_of_evicts (leads_makeRoom h bytes).trace makeRoomSteps_loads hx hev
  exact h.absent_iff.mpr hk hin

theorem touchSteps_hit (he : c.map k = some e) :
    touchSteps src c k s ptr off = [(.hit k s.pair, (refreshHit c k e).shelf)] := by
  simp [touchSteps, touchLocked, he]

theorem leads_touch (h : c.Wf)
    (ht : touchLocked src c k s ptr off = some (c', found)) :
    Leads c.toIndex c'.toIndex (touchSteps src c k s ptr off) ∧
      Settled (touchSteps src c k s ptr off) := by
  cases hk : c.map k with
  | some e =>
    obtain ⟨rfl, _⟩ := touchLocked_hit hk ht
    rw [touchSteps_hit hk]
    refine ⟨leads_refreshHit h hk, settled_of_forall ?_⟩
    intro x hx
    obtain rfl := List.mem_singleton.mp hx
    exact fun _ => id
  | none =>
    obtain ⟨f, hf, hc', hfound, hwf, habs, _⟩ := touchLocked_fill h hk ht
    subst hfound
    have hidx := fillSlice_toIndex hf
    have hsteps : touchSteps src c k s ptr off =
        makeRoomSteps c s.bytes ++ [(.load k s, c'.shelf)] := by
      rw [touchSteps, ht]
    rw [hsteps]
    refine ⟨(leads_makeRoom h s.bytes).append ?_, settled_makeRoom h hk⟩
    rw [hc', ← hidx]
    exact leads_commit (c := countMiss f s.bytes) hwf habs

end Commit

section Batch

variable {tensor : Str} {b : Batch} {base srcBase n n' : Nat} {es : List UInt32} {m : Miss}
  {ms : List Miss}

theorem leads_touchEach (h : c.Wf)
    (ht : touchEach src tensor base srcBase bytes es c n = some (c', n')) :
    Leads c.toIndex c'.toIndex (touchEachSteps src tensor base srcBase bytes es c) ∧
      Settled (touchEachSteps src tensor base srcBase bytes es c) := by
  induction es generalizing c n with
  | nil =>
    cases ht
    exact ⟨Leads.refl _, settled_nil⟩
  | cons e es ih =>
    obtain ⟨c₁, found, h₁, hrest⟩ := touchEach_cons ht
    obtain ⟨hleads, hset⟩ := leads_touch h h₁
    obtain ⟨hleads', hset'⟩ := ih (touchLocked_wf h h₁).1 hrest
    rw [touchEachSteps]
    simp only [h₁]
    exact ⟨hleads.append hleads', settled_append hset hset'⟩

theorem classifySteps_hit {e : UInt32} {entry : Entry} (he : c.map (key tensor e) = some entry) :
    classifySteps tensor bytes (e :: es) c =
      (.hit (key tensor e) (tensor, e), (refreshHit c (key tensor e) entry).shelf) ::
        classifySteps tensor bytes es (refreshHit c (key tensor e) entry) := by
  simp [classifySteps, he]

theorem classifySteps_miss {e : UInt32} (he : c.map (key tensor e) = none) :
    classifySteps tensor bytes (e :: es) c =
      makeRoomSteps c bytes ++ classifySteps tensor bytes es (makeRoomLocked c bytes) := by
  simp [classifySteps, he]

theorem leads_classify (h : c.Wf)
    (hc : classify tensor base srcBase bytes es c = (c', ms)) :
    Leads c.toIndex c'.toIndex (classifySteps tensor bytes es c) := by
  induction es generalizing c ms with
  | nil =>
    cases hc
    exact Leads.refl _
  | cons e es ih =>
    cases he : c.map (key tensor e) with
    | some entry =>
      rw [classify_hit he] at hc
      rw [classifySteps_hit he]
      exact (leads_refreshHit h he).append (ih (wf_refreshHit h he) hc)
    | none =>
      rw [classify_miss he] at hc
      obtain ⟨rfl, rfl⟩ := Prod.mk.inj hc
      rw [classifySteps_miss he]
      exact (leads_makeRoom h bytes).append (ih (roomMade h bytes).wf rfl)

theorem classifySteps_loads :
    ∀ x ∈ classifySteps tensor bytes es c, ∀ i, ¬LoadsKey i x := by
  induction es generalizing c with
  | nil => simp [classifySteps]
  | cons e es ih =>
    cases he : c.map (key tensor e) with
    | some entry =>
      rw [classifySteps_hit he]
      exact List.forall_mem_cons.mpr ⟨fun _ => id, ih⟩
    | none =>
      rw [classifySteps_miss he]
      intro x hx
      exact (List.mem_append.mp hx).elim (makeRoomSteps_loads x) (ih x)

/-- Nothing goes unless something is missing. -/
theorem classifySteps_evicts (hc : classify tensor base srcBase bytes es c = (c', [])) :
    ∀ x ∈ classifySteps tensor bytes es c, ∀ i, ¬EvictsKey i x := by
  induction es generalizing c with
  | nil => simp [classifySteps]
  | cons e es ih =>
    cases he : c.map (key tensor e) with
    | some entry =>
      rw [classify_hit he] at hc
      rw [classifySteps_hit he]
      exact List.forall_mem_cons.mpr ⟨fun _ => id, ih hc⟩
    | none =>
      rw [classify_miss he] at hc
      cases (Prod.mk.inj hc).2

/-- The first slice missing has been absent from the start. -/
theorem classify_first_absent (h : c.Wf)
    (hc : classify tensor base srcBase bytes es c = (c', m :: ms)) : c.map m.k = none := by
  induction es generalizing c with
  | nil => cases (Prod.mk.inj hc).2
  | cons e es ih =>
    cases he : c.map (key tensor e) with
    | some entry =>
      rw [classify_hit he] at hc
      have hwf := wf_refreshHit h he
      have hout := hwf.absent_iff.mpr (ih hwf hc)
      rw [recency_refreshHit h he, keys_refresh_perm.mem_iff] at hout
      exact h.absent_iff.mp hout
    | none =>
      rw [classify_miss he] at hc
      obtain ⟨rfl, _⟩ := List.cons.inj (Prod.mk.inj hc).2
      exact he

theorem leads_commitMisses (h : c.Wf) (habs : ∀ m ∈ ms, c.map m.k = none)
    (hnd : (keys (missItems ms)).Nodup) :
    Leads c.toIndex (commitMisses ms c).toIndex (commitSteps ms c) := by
  induction ms generalizing c with
  | nil => exact Leads.refl _
  | cons m ms ih =>
    have hm := habs m List.mem_cons_self
    obtain ⟨habs', hrest⟩ := absent_of_commit h habs hnd
    exact (leads_commit h hm).append (ih (wf_commitLocked h hm) habs' hrest)

theorem commitSteps_evicts : ∀ x ∈ commitSteps ms c, ∀ i, ¬EvictsKey i x := by
  induction ms generalizing c with
  | nil => simp [commitSteps]
  | cons m ms ih => exact List.forall_mem_cons.mpr ⟨fun _ => id, ih⟩

/-- What the batch evicts makes room for the first slice it commits. -/
theorem settled_deferred {c₂ : SliceCache} (h : c.Wf)
    (hc : classify tensor base srcBase bytes es c = (c', ms)) :
    Settled (classifySteps tensor bytes es c ++ commitSteps ms c₂) := by
  cases ms with
  | nil =>
    rw [commitSteps, List.append_nil]
    exact settled_of_forall (classifySteps_evicts hc)
  | cons m ms =>
    refine settled_load classifySteps_loads ?_ (settled_of_forall commitSteps_evicts)
    intro x hx hev
    have hin := mem_keys_of_evicts (leads_classify h hc).trace classifySteps_loads hx hev
    exact h.absent_iff.mpr (classify_first_absent h hc) hin

theorem leads_touchBatchAt (h : c.Wf)
    (ht : touchBatchAt src c tensor b base srcBase bytes = some (c', n)) :
    Leads c.toIndex c'.toIndex (touchBatchAtSteps src c tensor b base srcBase bytes) ∧
      Settled (touchBatchAtSteps src c tensor b base srcBase bytes) := by
  obtain ⟨c₁, ms, c₂, hclass, hfill, hidx, _⟩ := touchBatchAt_cases ht
  have hcount : (countDedup c b).Wf := h
  obtain ⟨hwf, _⟩ := classify_spec hcount hclass
  obtain ⟨habs, hnd, _⟩ := classify_absent hcount b.nodup hclass
  have hidx' := fillMisses_toIndex hfill
  have hsteps : touchBatchAtSteps src c tensor b base srcBase bytes =
      classifySteps tensor bytes b.uniq (countDedup c b) ++ commitSteps ms c₂ := by
    rw [touchBatchAtSteps, hclass]
    simp only [hfill]
  rw [hsteps]
  refine ⟨(leads_classify hcount hclass).append ?_, settled_deferred hcount hclass⟩
  rw [hidx, ← hidx']
  exact leads_commitMisses (hidx' ▸ hwf) (hidx' ▸ habs) hnd

theorem leads_commitJob (h : c.Wf) :
    Leads c.toIndex (commitJob c m).toIndex (commitJobSteps c m) ∧
      Settled (commitJobSteps c m) := by
  cases hk : c.map m.k with
  | some e =>
    have hjob : commitJob c m = c := by simp [commitJob, hk]
    have hsteps : commitJobSteps c m = [] := by simp [commitJobSteps, hk]
    rw [hjob, hsteps]
    exact ⟨Leads.refl _, settled_nil⟩
  | none =>
    have hroom := roomMade h m.slice.bytes
    have hsteps : commitJobSteps c m = makeRoomSteps c m.slice.bytes ++
        [(.load m.k m.slice, (commitJob c m).shelf)] := by
      simp [commitJobSteps, hk]
    have hjob : (commitJob c m).toIndex =
        (commitLocked (makeRoomLocked c m.slice.bytes) m.k m.slice).toIndex := by
      simp [commitJob, hk]
    rw [hsteps]
    refine ⟨(leads_makeRoom h m.slice.bytes).append ?_, settled_makeRoom h hk⟩
    rw [hjob]
    exact leads_commit hroom.wf (hroom.absent h hk)

theorem leads_commitJobs (h : c.Wf) :
    Leads c.toIndex (commitJobs ms c).toIndex (commitJobsSteps ms c) ∧
      Settled (commitJobsSteps ms c) := by
  induction ms generalizing c with
  | nil => exact ⟨Leads.refl _, settled_nil⟩
  | cons m ms ih =>
    obtain ⟨hleads, hset⟩ := leads_commitJob (m := m) h
    obtain ⟨hleads', hset'⟩ := ih (commitJob_wf h).1
    exact ⟨hleads.append hleads', settled_append hset hset'⟩

theorem leads_prefetchBatchAt (h : c.Wf) :
    Leads c.toIndex (prefetchBatchAt src c tensor b base srcBase bytes).toIndex
        (prefetchBatchAtSteps src c tensor b base srcBase bytes) ∧
      Settled (prefetchBatchAtSteps src c tensor b base srcBase bytes) := by
  cases hb : src.backend with
  | none =>
    simp only [prefetchBatchAt, prefetchBatchAtSteps, hb]
    exact ⟨Leads.refl _, settled_nil⟩
  | some bk =>
    have hidx : (readJobs bk (absentJobs c tensor b base srcBase bytes) c).toIndex = c.toIndex :=
      readJobs_toIndex
    simp only [prefetchBatchAt, prefetchBatchAtSteps, hb]
    split
    · have hwf : (readJobs bk (absentJobs c tensor b base srcBase bytes) c).Wf := hidx ▸ h
      rw [← hidx]
      exact leads_commitJobs hwf
    · rw [hidx]
      exact ⟨Leads.refl _, settled_nil⟩

end Batch

section Labels

variable {tensor : Str} {b : Batch} {base srcBase room : Nat} {es : List UInt32} {ms : List Miss}
  {w : State UInt64 Slice}

theorem asked_makeRoom : ∀ x ∈ makeRoomSteps c room, Asked tensor es bytes x.1 := by
  intro x hx
  obtain ⟨k, v, hev⟩ := evictSteps_evict _ x hx
  rw [hev]
  trivial

theorem asked_makeRoom_append (hs : Asked tensor es bytes (.load k s)) :
    ∀ x ∈ makeRoomSteps c room ++ [(.load k s, w)], Asked tensor es bytes x.1 := by
  intro x hx
  rcases List.mem_append.mp hx with hx | hx
  · exact asked_makeRoom x hx
  · obtain rfl := List.mem_singleton.mp hx
    exact hs

theorem asked_touch (hs : Asked tensor es bytes (.load k s)) :
    ∀ x ∈ touchSteps src c k s ptr off, Asked tensor es bytes x.1 := by
  unfold touchSteps
  split
  · obtain ⟨hk, ht, he, _⟩ := hs
    intro x hx
    obtain rfl := List.mem_singleton.mp hx
    exact ⟨hk, ht, he⟩
  · exact asked_makeRoom_append hs
  · simp

theorem asked_windowSlice {e : UInt32} (he : e ∈ es) :
    Asked tensor es bytes (.load (key tensor e) (windowSlice tensor base bytes e)) :=
  ⟨rfl, rfl, he, rfl⟩

theorem asked_touchEach {fs : List UInt32} (hfs : ∀ e ∈ fs, e ∈ es) :
    ∀ x ∈ touchEachSteps src tensor base srcBase bytes fs c, Asked tensor es bytes x.1 := by
  induction fs generalizing c with
  | nil => simp [touchEachSteps]
  | cons e fs ih =>
    obtain ⟨he, hrest⟩ := List.forall_mem_cons.mp hfs
    intro x hx
    rcases List.mem_append.mp hx with hx | hx
    · exact asked_touch (asked_windowSlice he) x hx
    · split at hx
      · exact ih hrest x hx
      · cases hx

theorem asked_classify {fs : List UInt32} (hfs : ∀ e ∈ fs, e ∈ es) :
    ∀ x ∈ classifySteps tensor room fs c, Asked tensor es bytes x.1 := by
  induction fs generalizing c with
  | nil => simp [classifySteps]
  | cons e fs ih =>
    obtain ⟨he, hrest⟩ := List.forall_mem_cons.mp hfs
    cases hk : c.map (key tensor e) with
    | some entry =>
      rw [classifySteps_hit hk]
      exact List.forall_mem_cons.mpr ⟨⟨rfl, rfl, he⟩, ih hrest⟩
    | none =>
      rw [classifySteps_miss hk]
      intro x hx
      exact (List.mem_append.mp hx).elim (asked_makeRoom x) (ih hrest x)

theorem asked_commit (hms : ∀ m ∈ ms, Asked tensor es bytes (.load m.k m.slice)) :
    ∀ x ∈ commitSteps ms c, Asked tensor es bytes x.1 := by
  induction ms generalizing c with
  | nil => simp [commitSteps]
  | cons m ms ih =>
    obtain ⟨hm, hrest⟩ := List.forall_mem_cons.mp hms
    exact List.forall_mem_cons.mpr ⟨hm, ih hrest⟩

theorem asked_commitJobs (hms : ∀ m ∈ ms, Asked tensor es bytes (.load m.k m.slice)) :
    ∀ x ∈ commitJobsSteps ms c, Asked tensor es bytes x.1 := by
  induction ms generalizing c with
  | nil => simp [commitJobsSteps]
  | cons m ms ih =>
    obtain ⟨hm, hrest⟩ := List.forall_mem_cons.mp hms
    intro x hx
    rcases List.mem_append.mp hx with hx | hx
    · unfold commitJobSteps at hx
      split at hx
      · cases hx
      · exact asked_makeRoom_append hm x hx
    · exact ih hrest x hx

theorem asked_touchBatchAt (h : c.Wf) :
    ∀ x ∈ touchBatchAtSteps src c tensor b base srcBase bytes,
      Asked tensor b.experts bytes x.1 := by
  have hin : ∀ e ∈ b.uniq, e ∈ b.experts := fun e => (b.mem_uniq e).mp
  obtain ⟨c₁, ms, hclass⟩ :
      ∃ c₁ ms, classify tensor base srcBase bytes b.uniq (countDedup c b) = (c₁, ms) :=
    ⟨_, _, rfl⟩
  obtain ⟨_, _, _, fs, hfs, hms⟩ := classify_spec (c := countDedup c b) h hclass
  have hload : ∀ m ∈ ms, Asked tensor b.experts bytes (.load m.k m.slice) := by
    rw [hms, List.forall_mem_map]
    exact fun e he => asked_windowSlice (hin e (hfs.subset he))
  rw [touchBatchAtSteps, hclass]
  intro x hx
  rcases List.mem_append.mp hx with hx | hx
  · exact asked_classify hin x hx
  · split at hx
    · exact asked_commit hload x hx
    · cases hx

theorem asked_prefetchBatchAt :
    ∀ x ∈ prefetchBatchAtSteps src c tensor b base srcBase bytes,
      Asked tensor b.experts bytes x.1 := by
  have hload : ∀ m ∈ absentJobs c tensor b base srcBase bytes,
      Asked tensor b.experts bytes (.load m.k m.slice) := by
    rw [absentJobs, List.forall_mem_map]
    exact fun e he => asked_windowSlice ((b.mem_uniq e).mp (List.mem_of_mem_filter he))
  unfold prefetchBatchAtSteps
  split
  · simp
  · dsimp only
    split
    · exact asked_commitJobs hload
    · simp

/-- The steps of a call are for the experts of the call. -/
theorem asked_run {call : Call} (h : c.Wf) :
    ∀ x ∈ call.steps src c, Asked call.tensor call.experts call.bytes x.1 := by
  cases call with
  | touch t e dest ptr bytes => exact asked_touch ⟨rfl, rfl, List.mem_singleton_self e, rfl⟩
  | touchAt t e dest off bytes => exact asked_touch ⟨rfl, rfl, List.mem_singleton_self e, rfl⟩
  | touchBatch t b base ptr bytes => exact asked_touchEach fun e => (b.mem_uniq e).mp
  | touchBatchAt t b base off bytes => exact asked_touchBatchAt h
  | prefetchBatchAt t b base off bytes => exact asked_prefetchBatchAt

end Labels

section Runs

variable {call : Call} {cap : Nat} {run : List ((Source × Call) × SliceCache)}

theorem leads_run (h : c.Wf) (hr : call.run src c = some c') :
    Leads c.toIndex c'.toIndex (call.steps src c) ∧ Settled (call.steps src c) := by
  cases call with
  | touch t e dest ptr bytes =>
    obtain ⟨⟨c₁, found⟩, ht, rfl⟩ := Option.map_eq_some_iff.mp hr
    exact leads_touch h ht
  | touchAt t e dest off bytes =>
    obtain ⟨⟨c₁, found⟩, ht, rfl⟩ := Option.map_eq_some_iff.mp hr
    exact leads_touch h ht
  | touchBatch t b base ptr bytes =>
    obtain ⟨⟨c₁, n⟩, ht, rfl⟩ := Option.map_eq_some_iff.mp hr
    exact leads_touchEach (c := countDedup c b) h ht
  | touchBatchAt t b base off bytes =>
    obtain ⟨⟨c₁, n⟩, ht, rfl⟩ := Option.map_eq_some_iff.mp hr
    exact leads_touchBatchAt h ht
  | prefetchBatchAt t b base off bytes =>
    obtain rfl := Option.some.inj hr
    exact leads_prefetchBatchAt h

/-- The steps of a run of calls. -/
theorem leads_steps (ht : (callSystem cap).Trace c run) (h : c.Wf) :
    Leads c.toIndex (final c run).toIndex (steps c run) ∧ Settled (steps c run) := by
  induction ht with
  | nil => exact ⟨Leads.refl _, settled_nil⟩
  | @cons c a c' run hs _ ih =>
    obtain ⟨src, call⟩ := a
    obtain ⟨hleads, hset⟩ := leads_run h hs
    obtain ⟨hleads', hset'⟩ := ih (run_wf h hs).1
    exact ⟨hleads.append hleads', settled_append hset hset'⟩

theorem asked_steps (ht : (callSystem cap).Trace c run) (h : c.Wf) :
    ∀ x ∈ steps c run, ∃ y ∈ run, Asked y.1.2.tensor y.1.2.experts y.1.2.bytes x.1 := by
  induction ht with
  | nil => simp [steps]
  | @cons c a c' run hs _ ih =>
    obtain ⟨src, call⟩ := a
    intro x hx
    rcases List.mem_append.mp hx with hx | hx
    · exact ⟨_, List.mem_cons_self, asked_run h x hx⟩
    · obtain ⟨y, hy, hasked⟩ := ih (run_wf h hs).1 x hx
      exact ⟨y, List.mem_cons_of_mem _ hy, hasked⟩

end Runs

end NotreEngine.Cache
