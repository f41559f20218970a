import NotreEngine.Cache.Accounting

/-!
# Pages without an entry

`used_` counts entries, the kernel counts written pages. The two agree along a run as long as what
is written is committed and dropped whole: slices of whole pages that fit the cap, and prefetches
whose reads all succeed or deliver nothing.
-/
namespace NotreEngine.Cache

open Recency Transition PagedMemory Layout

variable {src : Source} {L : Layout} {c c' r : SliceCache} {p q : Str × UInt32} {k : UInt64}
  {S T : Str × UInt32 → Prop} {ptr : Option Nat} {off bytes : Nat} {found : Bool}

namespace Layout

/-- Address `a` lies in the window slice of `p`. -/
def Inside (L : Layout) (p : Str × UInt32) (a : Nat) : Prop :=
  (L.slice p).sliceAddr ≤ a ∧ a < (L.slice p).sliceAddr + L.bytes p.1

/-- The window bytes on pages with a written window byte. -/
def populated (L : Layout) (m : PagedMemory) : Set Nat :=
  {a | (∃ p, L.Uses p ∧ L.Inside p a) ∧
    ∃ q b, L.Uses q ∧ L.Inside q b ∧ m b ≠ none ∧ b / kPage = a / kPage}

/-- Every window slice with a written byte belongs to an entry, and `used_` is what is populated. -/
structure Tracks (L : Layout) (c : SliceCache) : Prop where
  belongs : ∀ p a, L.Uses p → L.Inside p a → c.mem a ≠ none →
    ∃ e, c.map (keyOf p) = some e ∧ e.toSlice = L.slice p
  used : (L.populated c.mem).encard = c.used

/-- Exactly the resident slices and those in `S` are filled, all of them of whole pages; those in
`S` wait for their entries. -/
structure Awaits (L : Layout) (S : Str × UInt32 → Prop) (c : SliceCache) : Prop where
  wf : c.Wf
  describes : L.Describes c.toIndex
  paged : Paged c.toIndex
  absent : ∀ p, L.Uses p → S p → ¬ Resident c.toIndex p
  filled : ∀ p, L.Uses p → Resident c.toIndex p ∨ S p → L.Filled c.mem p
  dropped : ∀ p, L.Uses p → ¬ Resident c.toIndex p → ¬ S p → L.Dropped c.mem p

/-- Nothing is filled but what is resident. -/
def Exact (L : Layout) (c : SliceCache) : Prop := L.Awaits (fun _ => False) c

theorem exact_fresh (cap : Nat) : L.Exact (fresh cap) := by
  refine ⟨wf_empty cap, ?_, ?_, ?_, ?_, fun p _ _ _ i _ => rfl⟩
  · intro x hx
    cases hx
  · intro x hx
    cases hx
  · exact fun _ _ h => h.elim
  · rintro p _ (hr | h)
    · cases hr
    · exact h.elim

namespace Awaits

theorem congr (h : L.Awaits S c) (hST : ∀ p, L.Uses p → (S p ↔ T p)) : L.Awaits T c :=
  ⟨h.wf, h.describes, h.paged, fun p hp hT => h.absent p hp ((hST p hp).mpr hT),
    fun p hp hor => h.filled p hp (hor.imp_right (hST p hp).mpr),
    fun p hp hr hT => h.dropped p hp hr fun hS => hT ((hST p hp).mp hS)⟩

theorem drops (h : L.Awaits S c) (hwf : c'.Wf) (hd : L.Drops c c') : L.Awaits S c' := by
  refine ⟨hwf, hd.describes h.describes, hd.paged h.paged, ?_, ?_, ?_⟩
  · exact fun p hp hS hr => h.absent p hp hS (Resident.of_keys hd.subset hr)
  · rintro p hp (hr | hS)
    · have hold := h.filled p hp (Or.inl (Resident.of_keys hd.subset hr))
      exact (hd.same p hp fun _ => hr).filled hold
    · have hout := h.absent p hp hS
      exact (hd.same p hp fun hr => (hout hr).elim).filled (h.filled p hp (Or.inr hS))
  · intro p hp hr hS
    by_cases hold : Resident c.toIndex p
    · exact hd.dropped p hp hold hr
    · exact (hd.same p hp fun hc => (hold hc).elim).dropped (h.dropped p hp hold hS)

theorem fills (h : L.Exact c) (hf : L.Fills T c c')
    (hT : ∀ p, L.Uses p → T p → ¬ Resident c.toIndex p) : L.Awaits T c' := by
  have hidx := hf.toIndex
  refine ⟨hidx ▸ h.wf, hidx ▸ h.describes, hidx ▸ h.paged, ?_, ?_, ?_⟩
  · intro p hp hTp
    rw [hidx]
    exact hT p hp hTp
  · intro p hp hor
    by_cases hTp : T p
    · exact hf.filled p hp hTp
    · rw [hidx] at hor
      exact (hf.same p hp hTp).filled (h.filled p hp (Or.inl (hor.resolve_right hTp)))
  · intro p hp hr hTp
    rw [hidx] at hr
    exact (hf.same p hp hTp).dropped (h.dropped p hp hr id)

/-- The entry of a waiting slice is made. -/
theorem commit (h : L.Awaits S c) (hp : L.Uses p) (hS : S p) (hpg : kPage ∣ L.bytes p.1)
    (hwf : c'.Wf) (hmem : c'.mem = c.mem)
    (hrec : c'.recency = (keyOf p, L.slice p) :: c.recency) :
    L.Awaits (fun q => S q ∧ q ≠ p) c' := by
  have hres : ∀ q, L.Uses q → (Resident c'.toIndex q ↔ q = p ∨ Resident c.toIndex q) := by
    intro q hq
    rw [Resident, hrec, keys_cons, List.mem_cons]
    constructor
    · exact fun hor => hor.imp_left (L.key_injective q p hq hp)
    · exact fun hor => hor.imp_left (congrArg keyOf)
  refine ⟨hwf, ?_, ?_, ?_, ?_, ?_⟩
  · intro x hx
    rw [hrec] at hx
    rcases List.mem_cons.mp hx with rfl | hx
    · exact ⟨p, hp, rfl⟩
    · exact h.describes x hx
  · intro x hx
    rw [hrec] at hx
    rcases List.mem_cons.mp hx with rfl | hx
    · exact hpg
    · exact h.paged x hx
  · rintro q hq ⟨hSq, hne⟩ hr
    rcases (hres q hq).mp hr with heq | hr
    · exact hne heq
    · exact h.absent q hq hSq hr
  · intro q hq hor
    rw [hmem]
    by_cases hqp : q = p
    · exact hqp ▸ h.filled p hp (Or.inr hS)
    · apply h.filled q hq
      rcases hor with hr | hSq
      · exact Or.inl (((hres q hq).mp hr).resolve_left hqp)
      · exact Or.inr hSq.1
  · intro q hq hr hSq
    rw [hmem]
    have hout : q ≠ p ∧ ¬ Resident c.toIndex q := not_or.mp fun hor => hr ((hres q hq).mpr hor)
    exact h.dropped q hq hout.2 fun hS => hSq ⟨hS, hout.1⟩

end Awaits

theorem inside_iff {a : Nat} :
    L.Inside p a ↔ ∃ i < L.bytes p.1, a = (L.slice p).sliceAddr + i := by
  constructor
  · rintro ⟨hlo, hhi⟩
    exact ⟨a - (L.slice p).sliceAddr, by omega, by omega⟩
  · rintro ⟨i, hi, rfl⟩
    exact ⟨by omega, by omega⟩

theorem Filled.ne_none {m : PagedMemory} {a : Nat} (h : L.Filled m p) (ha : L.Inside p a) :
    m a ≠ none := by
  obtain ⟨i, hi, rfl⟩ := inside_iff.mp ha
  rw [h i hi]
  exact Option.some_ne_none _

theorem Dropped.eq_none {m : PagedMemory} {a : Nat} (h : L.Dropped m p) (ha : L.Inside p a) :
    m a = none := by
  obtain ⟨i, hi, rfl⟩ := inside_iff.mp ha
  exact h i hi

/-- The pages of a slice of whole pages lie in it. -/
theorem Inside.of_page {a b : Nat} (hpg : kPage ∣ L.bytes p.1) (hb : L.Inside p b)
    (h : b / kPage = a / kPage) : L.Inside p a := by
  obtain ⟨n, hn⟩ : kPage ∣ (L.slice p).sliceAddr :=
    dvd_add (L.base_aligned p.1) (Dvd.dvd.mul_left hpg _)
  obtain ⟨k, hk⟩ := hpg
  unfold Inside at hb ⊢
  rw [hn, hk] at hb ⊢
  unfold kPage at *
  omega

section Exact

theorem Exact.written_iff {a : Nat} (h : L.Exact c) (hp : L.Uses p) (ha : L.Inside p a) :
    c.mem a ≠ none ↔ Resident c.toIndex p := by
  constructor
  · intro hm
    by_contra hr
    exact hm ((h.dropped p hp hr id).eq_none ha)
  · intro hr
    exact (h.filled p hp (Or.inl hr)).ne_none ha

/-- The populated bytes are those of the resident slices. -/
theorem Exact.populated_eq (h : L.Exact c) :
    L.populated c.mem = {a | ∃ x ∈ c.recency, x.2.sliceAddr ≤ a ∧ a < x.2.sliceAddr + x.2.bytes} := by
  ext a
  constructor
  · rintro ⟨_, q, b, hq, hqb, hwritten, hpage⟩
    obtain ⟨s, hs⟩ := mem_keys.mp ((h.written_iff hq hqb).mp hwritten)
    obtain ⟨p, hp, heq⟩ := h.describes _ hs
    obtain rfl := L.key_injective q p hq hp (Prod.mk.inj heq).1
    obtain rfl := (Prod.mk.inj heq).2
    exact ⟨_, hs, hqb.of_page (h.paged _ hs) hpage⟩
  · rintro ⟨x, hx, ha⟩
    obtain ⟨p, hp, rfl⟩ := h.describes x hx
    have hres : Resident c.toIndex p := mem_keys_of_mem hx
    exact ⟨⟨p, hp, ha⟩, p, a, hp, ha, (h.written_iff hp ha).mpr hres, rfl⟩

/-- The addresses of slices that share none. -/
theorem encard_ranges {xs : List (UInt64 × Slice)}
    (h : xs.Pairwise fun x y => Apart x.2.sliceAddr x.2.bytes y.2.sliceAddr y.2.bytes) :
    {a | ∃ x ∈ xs, x.2.sliceAddr ≤ a ∧ a < x.2.sliceAddr + x.2.bytes}.encard =
      total Slice.bytes xs := by
  induction xs with
  | nil => simp
  | cons x xs ih =>
    obtain ⟨hx, hrest⟩ := List.pairwise_cons.mp h
    have hsplit : {a | ∃ y ∈ x :: xs, y.2.sliceAddr ≤ a ∧ a < y.2.sliceAddr + y.2.bytes} =
        (Finset.Ico x.2.sliceAddr (x.2.sliceAddr + x.2.bytes) : Set Nat) ∪
          {a | ∃ y ∈ xs, y.2.sliceAddr ≤ a ∧ a < y.2.sliceAddr + y.2.bytes} := by
      ext a
      simp
    have hdisjoint : Disjoint (Finset.Ico x.2.sliceAddr (x.2.sliceAddr + x.2.bytes) : Set Nat)
        {a | ∃ y ∈ xs, y.2.sliceAddr ≤ a ∧ a < y.2.sliceAddr + y.2.bytes} := by
      rw [Set.disjoint_left]
      rintro a ha ⟨y, hy, hya⟩
      have hapart := hx y hy
      rw [Finset.mem_coe, Finset.mem_Ico] at ha
      unfold Apart at hapart
      omega
    rw [hsplit, Set.encard_union_eq hdisjoint, ih hrest, Set.encard_coe_eq_coe_finsetCard,
      Nat.card_Ico, Nat.add_sub_cancel_left, total_cons, Nat.cast_add]

theorem Exact.apart (h : L.Exact c) :
    c.recency.Pairwise fun x y => Apart x.2.sliceAddr x.2.bytes y.2.sliceAddr y.2.bytes := by
  have hnodup : c.recency.Pairwise fun x y => x.1 ≠ y.1 := List.pairwise_map.mp h.wf.recency_nodup
  apply hnodup.imp_of_mem
  intro x y hx hy hne
  obtain ⟨p, hp, rfl⟩ := h.describes x hx
  obtain ⟨q, hq, rfl⟩ := h.describes y hy
  exact slices_apart hp hq fun heq => hne (heq ▸ rfl)

theorem Exact.tracks (h : L.Exact c) : L.Tracks c := by
  constructor
  · intro p a hp ha hm
    obtain ⟨s, hs⟩ := mem_keys.mp ((h.written_iff hp ha).mp hm)
    obtain ⟨q, hq, heq⟩ := h.describes _ hs
    obtain rfl := L.key_injective p q hp hq (Prod.mk.inj heq).1
    obtain rfl := (Prod.mk.inj heq).2
    exact h.wf.mem_iff.mp hs
  · rw [h.populated_eq, encard_ranges h.apart, h.wf.used_eq]

end Exact

end Layout

/-- What is written is committed: the slices the call asks for are of whole pages and fit the cap,
and of the reads of a prefetch none fails, or all fail before a byte has arrived. -/
def Call.Accounted (src : Source) (c : SliceCache) : Call → Prop
  | .prefetchBatchAt t b base off bytes => ∀ bk, src.backend = some bk →
    (∀ m ∈ absentJobs c t b base off bytes,
        bk.read m.off m.slice.bytes = false ∧ bk.arrived m.off m.slice.bytes = 0) ∨
      (∀ m ∈ absentJobs c t b base off bytes, bk.read m.off m.slice.bytes = true) ∧
        kPage ∣ bytes ∧ bytes ≤ c.hardCapBytes
  | call => ∀ s ∈ call.slices, kPage ∣ s.bytes ∧ s.bytes ≤ c.hardCapBytes

section Touch

theorem touchLocked_exact (h : L.Exact c) (hp : L.Uses p) (hpg : kPage ∣ L.bytes p.1)
    (hfit : (L.slice p).bytes ≤ c.hardCapBytes)
    (hdel : src.Delivers ptr off (L.bytes p.1) (L.data p))
    (ht : touchLocked src c (keyOf p) (L.slice p) ptr off = some (c', found)) : L.Exact c' := by
  rcases touchLocked_cases h.wf ht with ⟨e, he, rfl, _⟩ | ⟨hk, _, r, hm⟩
  · exact h.drops (wf_refreshHit h.wf he) (drops_refreshHit h.wf he)
  · obtain ⟨hdrops, hfills⟩ := hm.steps h.paged h.wf h.describes hp hdel
    have hroom : L.Exact r := h.drops hm.room.wf hdrops
    have hout : ∀ q, L.Uses q → q = p → ¬ Resident r.toIndex q := by
      rintro q _ rfl hr
      exact h.wf.absent_iff.mpr hk (Resident.of_keys hdrops.subset hr)
    have hrec := hm.recency
    rw [if_pos hfit] at hrec
    apply ((Awaits.fills hroom hfills hout).commit hp rfl hpg hm.wf rfl hrec).congr
    exact fun q _ => iff_false_intro fun hq => hq.2 hq.1

theorem touchEach_exact {t : Str} {es : List UInt32} {srcBase n n' : Nat} (h : L.Exact c)
    (hpg : es ≠ [] → kPage ∣ L.bytes t ∧ L.bytes t ≤ c.hardCapBytes)
    (hes : ∀ e ∈ es, L.Uses (t, e) ∧
      src.Delivers (some (srcBase + e.toNat * L.bytes t)) 0 (L.bytes t) (L.data (t, e)))
    (ht : touchEach src t (L.base t) srcBase (L.bytes t) es c n = some (c', n')) :
    L.Exact c' := by
  induction es generalizing c n with
  | nil =>
    cases ht
    exact h
  | cons e es ih =>
    obtain ⟨c₁, found, h₁, hrest⟩ := touchEach_cons ht
    obtain ⟨⟨hp, hdel⟩, hes'⟩ := List.forall_mem_cons.mp hes
    obtain ⟨hpage, hfit⟩ := hpg (List.cons_ne_nil e es)
    have hone : L.Exact c₁ := touchLocked_exact (p := (t, e)) h hp hpage hfit hdel h₁
    have hcap := (touchLocked_wf h.wf h₁).2
    exact ih hone (fun _ => ⟨hpage, hcap ▸ hfit⟩) hes' hrest

end Touch

section Commit

variable {m : Miss} {ms : List Miss}

/-- The slices of jobs still to be committed. -/
def Pending (ms : List Miss) (p : Str × UInt32) : Prop := keyOf p ∈ ms.map Miss.k

/-- A job of the layout that fits, in whole pages. -/
def Layout.Fitting (L : Layout) (cap : Nat) (m : Miss) : Prop :=
  ∃ p, L.Uses p ∧ m.k = keyOf p ∧ m.slice = L.slice p ∧ kPage ∣ L.bytes p.1 ∧
    (L.slice p).bytes ≤ cap

theorem Layout.Job.fitting {cap : Nat} (h : L.Job src m)
    (hb : kPage ∣ m.slice.bytes ∧ m.slice.bytes ≤ cap) : L.Fitting cap m := by
  obtain ⟨p, hp, hk, hs, _⟩ := h
  rw [hs] at hb
  exact ⟨p, hp, hk, hs, hb⟩

theorem commitLocked_awaits (h : L.Awaits (Pending (m :: ms)) c)
    (hm : L.Fitting c.hardCapBytes m) (hnd : ((m :: ms).map Miss.k).Nodup) :
    L.Awaits (Pending ms) (commitLocked c m.k m.slice) := by
  obtain ⟨p, hp, hk, hs, hpg, hfit⟩ := hm
  have hpend : Pending (m :: ms) p := by
    rw [Pending, List.map_cons, hk]
    exact List.mem_cons_self
  have habs : c.map m.k = none := by
    apply h.wf.absent_iff.mp
    rw [hk]
    exact h.absent p hp hpend
  have hrec := recency_commitLocked (s := m.slice) h.wf habs
  rw [hs, if_pos hfit, hk] at hrec
  rw [hk] at habs
  rw [hs, hk]
  apply (h.commit hp hpend hpg (wf_commitLocked h.wf habs) commitLocked_mem hrec).congr
  intro q hq
  have hnotin : keyOf p ∉ ms.map Miss.k := hk ▸ (List.nodup_cons.mp hnd).1
  rw [Pending, Pending, List.map_cons, List.mem_cons, hk]
  constructor
  · rintro ⟨heq | hin, hne⟩
    · exact (hne (L.key_injective q p hq hp heq)).elim
    · exact hin
  · intro hin
    refine ⟨Or.inr hin, ?_⟩
    rintro rfl
    exact hnotin hin

theorem commitMisses_exact (h : L.Awaits (Pending ms) c)
    (hms : ∀ m ∈ ms, L.Fitting c.hardCapBytes m) (hnd : (ms.map Miss.k).Nodup) :
    L.Exact (commitMisses ms c) := by
  induction ms generalizing c with
  | nil => exact h.congr fun p _ => by simp [Pending]
  | cons m ms ih =>
    obtain ⟨hm, hrest⟩ := List.forall_mem_cons.mp hms
    apply ih (commitLocked_awaits h hm hnd) _ (List.nodup_cons.mp hnd).2
    rw [commitLocked_hardCapBytes]
    exact hrest

theorem commitJob_awaits (h : L.Awaits (Pending (m :: ms)) c)
    (hm : L.Fitting c.hardCapBytes m) (hnd : ((m :: ms).map Miss.k).Nodup) :
    L.Awaits (Pending ms) (commitJob c m) := by
  obtain ⟨p, hp, hk, _⟩ := id hm
  have habs : c.map m.k = none := by
    apply h.wf.absent_iff.mp
    rw [hk]
    apply h.absent p hp
    rw [Pending, List.map_cons, hk]
    exact List.mem_cons_self
  rcases commitJob_cases h.wf m with ⟨e, he, _⟩ | ⟨_, r, hroom, _, hidx, hmem⟩
  · rw [habs] at he
    cases he
  · have hawaits := h.drops hroom.wf (drops_roomMade h.paged h.describes h.wf hroom)
    have hcommit := commitLocked_awaits hawaits (hroom.cap ▸ hm) hnd
    have hmem' : (commitJob c m).mem = (commitLocked r m.k m.slice).mem :=
      hmem.trans commitLocked_mem.symm
    exact ⟨hidx ▸ hcommit.wf, hidx ▸ hcommit.describes, hidx ▸ hcommit.paged,
      hidx ▸ hcommit.absent, hidx ▸ hmem' ▸ hcommit.filled, hidx ▸ hmem' ▸ hcommit.dropped⟩

theorem commitJobs_exact (h : L.Awaits (Pending ms) c)
    (hms : ∀ m ∈ ms, L.Fitting c.hardCapBytes m) (hnd : (ms.map Miss.k).Nodup) :
    L.Exact (commitJobs ms c) := by
  induction ms generalizing c with
  | nil => exact h.congr fun p _ => by simp [Pending]
  | cons m ms ih =>
    obtain ⟨hm, hrest⟩ := List.forall_mem_cons.mp hms
    have hcap := (commitJob_wf (m := m) h.wf).2
    exact ih (commitJob_awaits h hm hnd) (hcap ▸ hrest) (List.nodup_cons.mp hnd).2

end Commit

section Calls

variable {t : Str} {srcBase n : Nat} {b : Batch}

theorem touchBatchAt_exact (h : L.Exact c)
    (hpg : b.uniq ≠ [] → kPage ∣ L.bytes t ∧ L.bytes t ≤ c.hardCapBytes)
    (hes : ∀ e ∈ b.experts, L.Uses (t, e) ∧
      src.Delivers none (srcBase + e.toNat * L.bytes t) (L.bytes t) (L.data (t, e)))
    (ht : touchBatchAt src c t b (L.base t) srcBase (L.bytes t) = some (c', n)) :
    L.Exact c' := by
  obtain ⟨c₁, ms, c₂, hclass, hfill, hidx, _, hmem⟩ := touchBatchAt_cases ht
  obtain ⟨hwf, hcap, _, fs, hfs, hms⟩ := classify_spec (c := countDedup c b) h.wf hclass
  obtain ⟨habs, hnd, hbytes⟩ := classify_absent (c := countDedup c b) h.wf b.nodup hclass
  have hcount : L.Exact (countDedup c b) :=
    ⟨h.wf, h.describes, h.paged, h.absent, h.filled, h.dropped⟩
  have hdrops : L.Drops (countDedup c b) c₁ :=
    classify_drops hcount.paged hcount.wf hcount.describes hclass
  have hclassified : L.Exact c₁ := hcount.drops hwf hdrops
  have hjobs : ∀ m ∈ ms, L.Job src m := hms ▸ jobs_of_sublist hfs hes
  have hfills := fillMisses_fills hjobs hfill
  have hout : ∀ p, L.Uses p → Pending ms p → ¬ Resident c₁.toIndex p := by
    intro p _ hp
    obtain ⟨m, hm, hk⟩ := List.mem_map.mp hp
    rw [Resident, ← hk]
    exact hwf.absent_iff.mpr (habs m hm)
  have hfit : ∀ m ∈ ms, L.Fitting c₂.hardCapBytes m := by
    intro m hm
    have hne : b.uniq ≠ [] := by
      intro hnil
      rw [hnil, List.sublist_nil] at hfs
      simp [hms, hfs] at hm
    apply (hjobs m hm).fitting
    rw [hbytes m hm, fillMisses_toIndex hfill, hcap]
    exact hpg hne
  have hkeys : (ms.map Miss.k).Nodup := by
    rwa [keys_missItems] at hnd
  have hexact := commitMisses_exact (Awaits.fills hclassified hfills hout) hfit hkeys
  exact ⟨hidx ▸ hexact.wf, hidx ▸ hexact.describes, hidx ▸ hexact.paged, hidx ▸ hexact.absent,
    hidx ▸ hmem ▸ hexact.filled, hidx ▸ hmem ▸ hexact.dropped⟩

theorem readJobs_of_failed {bk : Backend} {ms : List Miss}
    (h : ∀ m ∈ ms, bk.arrived m.off m.slice.bytes = 0) : readJobs bk ms c = c := by
  induction ms generalizing c with
  | nil => rfl
  | cons m ms ih =>
    obtain ⟨hm, hrest⟩ := List.forall_mem_cons.mp h
    rw [readJobs, readJob, hm, fill, write_zero]
    exact ih hrest

/-- A prefetch whose reads deliver nothing, or that reads nothing, changes nothing. -/
theorem prefetchBatchAt_of_failed {bk : Backend} {base off bytes : Nat}
    (hb : src.backend = some bk)
    (h : ∀ m ∈ absentJobs c t b base off bytes,
      bk.read m.off m.slice.bytes = false ∧ bk.arrived m.off m.slice.bytes = 0) :
    prefetchBatchAt src c t b base off bytes = c := by
  simp only [prefetchBatchAt, hb, readJobs_of_failed fun m hm => (h m hm).2]
  split
  · rename_i hall
    have hnil : absentJobs c t b base off bytes = [] := by
      apply List.eq_nil_iff_forall_not_mem.mpr
      intro m hm
      have := List.all_eq_true.mp hall m hm
      rw [(h m hm).1] at this
      cases this
    rw [hnil]
    rfl
  · rfl

theorem prefetchBatchAt_exact (h : L.Exact c)
    (hes : ∀ e ∈ b.experts, L.Uses (t, e) ∧
      src.Delivers none (srcBase + e.toNat * L.bytes t) (L.bytes t) (L.data (t, e)))
    (hacc : (Call.prefetchBatchAt t b (L.base t) srcBase (L.bytes t)).Accounted src c) :
    L.Exact (prefetchBatchAt src c t b (L.base t) srcBase (L.bytes t)) := by
  cases hb : src.backend with
  | none =>
    rw [prefetchBatchAt, hb]
    exact h
  | some bk =>
    rcases hacc bk hb with hfail | ⟨hread, hpg⟩
    · rw [prefetchBatchAt_of_failed hb hfail]
      exact h
    · obtain ⟨hjobs, hnd, habs⟩ := absentJobs_spec (c := c) h.wf hes
      have hfills := readJobs_fills (c := c) hjobs hb hread
      have hpending : L.Awaits (Pending (absentJobs c t b (L.base t) srcBase (L.bytes t)))
          (readJobs bk (absentJobs c t b (L.base t) srcBase (L.bytes t)) c) :=
        Awaits.fills h hfills fun p _ hp hr => habs _ hp hr
      have hall : (absentJobs c t b (L.base t) srcBase (L.bytes t)).all
          (fun m => bk.read m.off m.slice.bytes) = true := List.all_eq_true.mpr hread
      simp only [prefetchBatchAt, hb, hall, if_true]
      apply commitJobs_exact hpending _ hnd
      intro m hm
      obtain ⟨e, _, heq⟩ := absentJobs_slice hm
      apply (hjobs m hm).fitting
      rw [heq, hfills.toIndex]
      exact hpg

/-- The slices of a batch that names an expert have its size. -/
theorem batch_accounted {base bytes cap : Nat} (h : ∀ s ∈ b.experts.map (windowSlice t base bytes),
      kPage ∣ s.bytes ∧ s.bytes ≤ cap) (hne : b.uniq ≠ []) : kPage ∣ bytes ∧ bytes ≤ cap := by
  obtain ⟨e, he⟩ := List.exists_mem_of_ne_nil _ hne
  exact h _ (List.mem_map_of_mem ((b.mem_uniq e).mp he))

/-- A call that commits what it writes leaves nothing filled but what is resident. -/
theorem run_exact {call : Call} (h : L.Exact c) (hf : L.Follows src call)
    (hacc : call.Accounted src c) (hr : call.run src c = some c') : L.Exact c' := by
  cases call with
  | touch t e dest ptr bytes =>
    obtain ⟨hp, hs, hdel⟩ := hf
    obtain ⟨⟨c₁, found⟩, ht, rfl⟩ := Option.map_eq_some_iff.mp hr
    obtain ⟨_, _, rfl, rfl⟩ := Slice.mk.inj hs
    obtain ⟨hpg, hfit⟩ := hacc _ (List.mem_singleton_self _)
    exact touchLocked_exact (p := (t, e)) h hp hpg hfit hdel ht
  | touchAt t e dest off bytes =>
    obtain ⟨hp, hs, hdel⟩ := hf
    obtain ⟨⟨c₁, found⟩, ht, rfl⟩ := Option.map_eq_some_iff.mp hr
    obtain ⟨_, _, rfl, rfl⟩ := Slice.mk.inj hs
    obtain ⟨hpg, hfit⟩ := hacc _ (List.mem_singleton_self _)
    exact touchLocked_exact (p := (t, e)) h hp hpg hfit hdel ht
  | touchBatch t b base ptr bytes =>
    obtain ⟨rfl, rfl, hes⟩ := hf
    obtain ⟨⟨c₁, n⟩, ht, rfl⟩ := Option.map_eq_some_iff.mp hr
    have hcount : L.Exact (countDedup c b) :=
      ⟨h.wf, h.describes, h.paged, h.absent, h.filled, h.dropped⟩
    exact touchEach_exact hcount (batch_accounted hacc)
      (fun e he => hes e ((b.mem_uniq e).mp he)) ht
  | touchBatchAt t b base off bytes =>
    obtain ⟨rfl, rfl, hes⟩ := hf
    obtain ⟨⟨c₁, n⟩, ht, rfl⟩ := Option.map_eq_some_iff.mp hr
    exact touchBatchAt_exact h (batch_accounted hacc) hes ht
  | prefetchBatchAt t b base off bytes =>
    obtain ⟨rfl, rfl, hes⟩ := hf
    obtain rfl := Option.some.inj hr
    exact prefetchBatchAt_exact h hes hacc

end Calls

/-- Runs of calls that commit what they write. -/
theorem tracks_of_accounted (L : Layout) (cap : Nat) (tr : List ((Source × Call) × SliceCache))
    (ht : (L.system cap).Trace (fresh cap) tr)
    (hg : Guarded (fun c a => a.2.Accounted a.1 c) (fresh cap) tr) : ∀ x ∈ tr, L.Tracks x.2 := by
  have hall := ht.forall_of_guarded (P := L.Exact)
    (by
      rintro c ⟨src, call⟩ c' hc ⟨hf, hr⟩ hacc
      exact run_exact hc hf hacc hr)
    (exact_fresh cap) hg
  exact fun x hx => (hall x hx).tracks

/-- Two slices of a page each under a cap of two pages. -/
theorem tracks_of_accounted_pair :
    (onesLayout 2 kPage).Tracks
      (((Call.touchBatchAt [65] pairBatch 0 0 kPage).run onesSource (fresh 8192)).get
        (by decide)) := by
  refine tracks_of_accounted (onesLayout 2 kPage) 8192
    [((onesSource, .touchBatchAt [65] pairBatch 0 0 kPage), _)]
    (.cons ⟨(onesLayout_follows (by decide)).2.1, (Option.some_get (by decide)).symm⟩ (.nil _))
    ⟨?_, trivial⟩ _ (List.mem_singleton.mpr rfl)
  intro s hs
  obtain ⟨e, _, rfl⟩ := List.mem_map.mp hs
  exact ⟨dvd_refl kPage, (by decide : kPage ≤ 8192)⟩

/-- Under a cap of one page the pages of a slice of two are filled and have no entry. -/
theorem not_tracks :
    ¬ ∀ (L : Layout) (cap : Nat) (tr : List ((Source × Call) × SliceCache)),
      (L.system cap).Trace (fresh cap) tr → ∀ x ∈ tr, L.Tracks x.2 := by
  intro h
  have hrun : ((Call.touchBatchAt [65] pairBatch 0 0 8192).run onesSource (fresh 4096)).map
      (fun c => (c.mem 0, (c.map (keyOf ([65], 0))).isSome)) = some (some 1, false) := by
    decide
  obtain ⟨c', hc', heq⟩ := Option.map_eq_some_iff.mp hrun
  obtain ⟨hmem, hmap⟩ := Prod.mk.inj heq
  have htracks := h (onesLayout 2 8192) 4096
    [((onesSource, .touchBatchAt [65] pairBatch 0 0 8192), c')]
    (.cons ⟨(onesLayout_follows (by decide)).2.1, hc'⟩ (.nil _)) _ (List.mem_singleton.mpr rfl)
  obtain ⟨e, he, _⟩ := htracks.belongs ([65], 0) 0 (onesLayout_uses (by decide))
    ⟨by decide, by decide⟩ (by rw [hmem]; exact Option.some_ne_none _)
  rw [he] at hmap
  cases hmap

end NotreEngine.Cache
