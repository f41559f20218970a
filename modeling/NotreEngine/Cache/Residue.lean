import NotreEngine.Cache.Capacity
import NotreEngine.Cache.Neighbour

/-!
# What a batch leaves of the other slices

A batch writes the slices it names. Every other slice keeps what it held, but for the pages that
making room gives back; so it is zero afterwards only if it was, or if eviction reaches it.
-/
namespace NotreEngine.Cache

open Recency Transition PagedMemory

/-- The call fills the slices of tensor `t` that `es` names. -/
def Call.Serves (t : Str) (es : Finset UInt32) : Call → Prop
  | .touchBatch t' b _ _ _ => t' = t ∧ b.experts.toFinset = es
  | .touchBatchAt t' b _ _ _ => t' = t ∧ b.experts.toFinset = es
  | _ => False

variable {src : Source} {L : Layout} {c c' r : SliceCache} {p q : Str × UInt32} {cap i : Nat}

namespace Layout

/-- Every slice of tensor `t` outside `es` reads as zeros. -/
def ZeroOutside (L : Layout) (t : Str) (es : Finset UInt32) (m : PagedMemory) : Prop :=
  ∀ e ∉ es, L.Uses (t, e) → ∀ i < L.bytes t, m.read ((L.slice (t, e)).sliceAddr + i) = 0

/-- The windows of tensor `t` hold the same. -/
def SameWindow (L : Layout) (t : Str) (m m' : PagedMemory) : Prop :=
  ∀ e, L.Uses (t, e) → ∀ i < L.bytes t,
    m.read ((L.slice (t, e)).sliceAddr + i) = m'.read ((L.slice (t, e)).sliceAddr + i)

/-- If slice `p` is missing, making room for it gives back the page of `a`. -/
def GivesBack (L : Layout) (cap : Nat) (p : Str × UInt32) (xs : List (UInt64 × Slice)) (a : Nat) :
    Prop :=
  keyOf p ∉ keys xs ∧ ∃ v ∈ xs, v ∉ L.kept cap p xs ∧ v.2.Covers a

/-- Some slice of a list gives the page back when its turn comes; `use` is what a turn does to the
resident slices. -/
def GivesBackAny (L : Layout) (cap : Nat)
    (use : Str × UInt32 → List (UInt64 × Slice) → List (UInt64 × Slice)) :
    List (Str × UInt32) → List (UInt64 × Slice) → Nat → Prop
  | [], _, _ => False
  | p :: ps, xs, a => L.GivesBack cap p xs a ∨ L.GivesBackAny cap use ps (use p xs) a

/-- A turn of the loop of `touch_batch`. -/
def useNow (L : Layout) (cap : Nat) (p : Str × UInt32) (xs : List (UInt64 × Slice)) :
    List (UInt64 × Slice) :=
  Recency.touch Slice.bytes cap (keyOf p) (L.slice p) xs

/-- A turn of phase 1 of `touch_batch_at`, which inserts nothing yet. -/
def useLater (L : Layout) (cap : Nat) (p : Str × UInt32) (xs : List (UInt64 × Slice)) :
    List (UInt64 × Slice) :=
  if keyOf p ∈ keys xs then refresh (keyOf p) xs else L.kept cap p xs

/-- Making room for what the batch misses gives back the page of `a`. -/
def Reclaims (L : Layout) (c : Index) (a : Nat) : Call → Prop
  | .touchBatch t b _ _ _ =>
    L.GivesBackAny c.hardCapBytes (L.useNow c.hardCapBytes) (b.uniq.map fun e => (t, e)) c.recency a
  | .touchBatchAt t b _ _ _ =>
    L.GivesBackAny c.hardCapBytes (L.useLater c.hardCapBytes) (b.uniq.map fun e => (t, e))
      c.recency a
  | _ => False

/-- Whatever the slices of `t` outside `es` hold before the call lies on pages it gives back. -/
def Sweeps (L : Layout) (t : Str) (es : Finset UInt32) (c : SliceCache) (call : Call) : Prop :=
  ∀ e ∉ es, L.Uses (t, e) → ∀ i < L.bytes t,
    c.mem.read ((L.slice (t, e)).sliceAddr + i) = 0 ∨
      L.Reclaims c.toIndex ((L.slice (t, e)).sliceAddr + i) call

/-- After some history of calls that follow the layout, a call serves `es` of tensor `t`. -/
structure Serving (L : Layout) (t : Str) (es : Finset UInt32) (call : Call) (c c' : SliceCache) :
    Prop where
  history : ∃ cap, (L.system cap).Reachable c
  serves : call.Serves t es
  run : ∃ src, L.Follows src call ∧ call.run src c = some c'

end Layout

open Layout

section Step

variable {ptr : Option Nat} {off : Nat} {found : Bool}

theorem RoomMade.read_eq_zero_iff (hr : RoomMade c (L.bytes p.1) r) (h : c.Wf)
    (hk : keyOf p ∉ keys c.recency) (a : Nat) :
    r.mem.read a = 0 ↔ L.GivesBack c.hardCapBytes p c.recency a ∨ c.mem.read a = 0 := by
  have hgives : L.GivesBack c.hardCapBytes p c.recency a ↔
      ∃ v ∈ c.recency, v ∉ r.recency ∧ v.2.Covers a := by
    rw [GivesBack, hr.recency]
    exact and_iff_right hk
  rw [hgives, PagedMemory.read, hr.mem_apply h.recency_nodup]
  split
  · rename_i hback
    exact iff_of_true rfl (Or.inl hback)
  · rename_i hback
    exact (or_iff_right hback).symm

theorem not_givesBack {xs : List (UInt64 × Slice)} {a : Nat} (hk : keyOf p ∈ keys xs) :
    ¬ L.GivesBack cap p xs a := fun h => h.1 hk

/-- What one touch leaves of another slice. -/
theorem touchLocked_read_eq_zero_iff (h : c.Wf) (hp : L.Uses p) (hq : L.Uses q) (hne : q ≠ p)
    (hdel : src.Delivers ptr off (L.bytes p.1) (L.data p))
    (ht : touchLocked src c (keyOf p) (L.slice p) ptr off = some (c', found))
    (hi : i < L.bytes q.1) :
    c'.mem.read ((L.slice q).sliceAddr + i) = 0 ↔
      L.GivesBack c.hardCapBytes p c.recency ((L.slice q).sliceAddr + i) ∨
        c.mem.read ((L.slice q).sliceAddr + i) = 0 := by
  rcases touchLocked_cases h ht with ⟨e, he, rfl, _⟩ | ⟨hk, _, r, hm⟩
  · have hin : keyOf p ∈ keys c.recency := h.mem_keys_iff.mpr ⟨e, he⟩
    exact (or_iff_right (not_givesBack hin)).symm
  · have hsame : c'.mem ((L.slice q).sliceAddr + i) = r.mem ((L.slice q).sliceAddr + i) := by
      rw [hm.mem _ hdel]
      exact same_write hp hq (Ne.symm hne) _ i hi
    rw [PagedMemory.read, hsame]
    exact hm.room.read_eq_zero_iff h (h.absent_iff.mpr hk) _

end Step

section Batch

variable {t : Str} {es : List UInt32} {srcBase n n' : Nat} {b : Batch} {ms : List Miss}

/-- What the loop of `touch_batch` leaves of a slice it does not name. -/
theorem touchEach_read_eq_zero_iff (h : c.Wf)
    (hes : ∀ e ∈ es, L.Uses (t, e) ∧
      src.Delivers (some (srcBase + e.toNat * L.bytes t)) 0 (L.bytes t) (L.data (t, e)))
    (ht : touchEach src t (L.base t) srcBase (L.bytes t) es c n = some (c', n'))
    (hq : L.Uses q) (hout : ∀ e ∈ es, q ≠ (t, e)) (hi : i < L.bytes q.1) :
    c'.mem.read ((L.slice q).sliceAddr + i) = 0 ↔
      L.GivesBackAny c.hardCapBytes (L.useNow c.hardCapBytes) (es.map fun e => (t, e)) c.recency
          ((L.slice q).sliceAddr + i) ∨
        c.mem.read ((L.slice q).sliceAddr + i) = 0 := by
  induction es generalizing c n with
  | nil =>
    cases ht
    exact (or_iff_right id).symm
  | cons e es ih =>
    obtain ⟨c₁, found, h₁, hrest⟩ := touchEach_cons ht
    obtain ⟨hp, hdel⟩ := hes e (by simp)
    obtain ⟨hwf, hcap⟩ := touchLocked_wf h h₁
    have hstep := touchLocked_read_eq_zero_iff h (p := (t, e)) hp hq (hout e (by simp)) hdel h₁ hi
    have hrec : c₁.recency = L.useNow c.hardCapBytes (t, e) c.recency := touchLocked_recency h h₁
    have htail := ih hwf (fun f hf => hes f (by simp [hf])) hrest
      (fun f hf => hout f (by simp [hf]))
    rw [hcap, hrec, hstep] at htail
    rw [htail, List.map_cons, GivesBackAny]
    tauto

/-- What phase 1 of `touch_batch_at` leaves at an address. -/
theorem classify_read_eq_zero_iff (h : c.Wf)
    (hc : classify t (L.base t) srcBase (L.bytes t) es c = (c', ms)) (a : Nat) :
    c'.mem.read a = 0 ↔
      L.GivesBackAny c.hardCapBytes (L.useLater c.hardCapBytes) (es.map fun e => (t, e)) c.recency
          a ∨ c.mem.read a = 0 := by
  induction es generalizing c ms with
  | nil =>
    cases hc
    exact (or_iff_right id).symm
  | cons e es ih =>
    rw [List.map_cons, GivesBackAny]
    cases he : c.map (key t e) with
    | some entry =>
      rw [classify_hit he] at hc
      have hin : keyOf (t, e) ∈ keys c.recency := h.mem_keys_iff.mpr ⟨entry, he⟩
      have htail := ih (wf_refreshHit h he) hc
      rw [recency_refreshHit h he] at htail
      rw [or_iff_right (not_givesBack hin), useLater, if_pos hin]
      exact htail
    | none =>
      rw [classify_miss he] at hc
      obtain ⟨rfl, _⟩ := Prod.mk.inj hc
      have hout : keyOf (t, e) ∉ keys c.recency := h.absent_iff.mpr he
      have hroom := roomMade h (L.bytes t)
      have hstep := hroom.read_eq_zero_iff (p := (t, e)) h hout a
      have htail := ih hroom.wf rfl
      rw [hroom.cap, hroom.recency, hstep] at htail
      rw [htail, useLater, if_neg hout, kept]
      tauto

/-- What `touch_batch_at` leaves of a slice it does not name. -/
theorem touchBatchAt_read_eq_zero_iff (h : c.Wf)
    (hes : ∀ e ∈ b.experts, L.Uses (t, e) ∧
      src.Delivers none (srcBase + e.toNat * L.bytes t) (L.bytes t) (L.data (t, e)))
    (ht : touchBatchAt src c t b (L.base t) srcBase (L.bytes t) = some (c', n))
    (hq : L.Uses q) (hout : ∀ e ∈ b.uniq, q ≠ (t, e)) (hi : i < L.bytes q.1) :
    c'.mem.read ((L.slice q).sliceAddr + i) = 0 ↔
      L.GivesBackAny c.hardCapBytes (L.useLater c.hardCapBytes) (b.uniq.map fun e => (t, e))
          c.recency ((L.slice q).sliceAddr + i) ∨
        c.mem.read ((L.slice q).sliceAddr + i) = 0 := by
  obtain ⟨c₁, ms, c₂, hclass, hfill, _, _, hmem⟩ := touchBatchAt_cases ht
  obtain ⟨_, _, _, fs, hfs, rfl⟩ := classify_spec (c := countDedup c b) h hclass
  have hjobs := jobs_of_sublist hfs hes
  have hapart : keyOf q ∉ (fs.map (windowMiss t (L.base t) srcBase (L.bytes t))).map Miss.k := by
    intro hk
    rw [List.map_map] at hk
    obtain ⟨e, he, hkey⟩ := List.mem_map.mp hk
    have hmem := hfs.subset he
    have huses := (hes e ((b.mem_uniq e).mp hmem)).1
    exact hout e hmem (L.key_injective q (t, e) hq huses hkey.symm)
  have hsame := (fillMisses_fills hjobs hfill).same q hq hapart i hi
  rw [hmem, commitMisses_mem, PagedMemory.read, hsame]
  exact classify_read_eq_zero_iff (c := countDedup c b) h hclass _

end Batch

section Serve

variable {call : Call} {t : Str} {es : Finset UInt32}

/-- What a call that serves `es` leaves of another slice of the tensor. -/
theorem run_read_eq_zero_iff {e : UInt32} (h : c.Wf) (hs : call.Serves t es)
    (hf : L.Follows src call) (hr : call.run src c = some c') (he : e ∉ es) (hu : L.Uses (t, e))
    (hi : i < L.bytes t) :
    c'.mem.read ((L.slice (t, e)).sliceAddr + i) = 0 ↔
      L.Reclaims c.toIndex ((L.slice (t, e)).sliceAddr + i) call ∨
        c.mem.read ((L.slice (t, e)).sliceAddr + i) = 0 := by
  have hother : ∀ b : Batch, b.experts.toFinset = es → ∀ f ∈ b.uniq, (t, e) ≠ (t, f) := by
    rintro b rfl f hf heq
    obtain rfl := (Prod.mk.inj heq).2
    exact he (List.mem_toFinset.mpr ((b.mem_uniq e).mp hf))
  cases call with
  | touchBatch t' b base ptr bytes =>
    obtain ⟨rfl, hb⟩ := hs
    obtain ⟨rfl, rfl, hes⟩ := hf
    obtain ⟨⟨c₁, n⟩, ht, rfl⟩ := Option.map_eq_some_iff.mp hr
    exact touchEach_read_eq_zero_iff (c := countDedup c b) h
      (fun f hf => hes f ((b.mem_uniq f).mp hf)) ht hu (hother b hb) hi
  | touchBatchAt t' b base off bytes =>
    obtain ⟨rfl, hb⟩ := hs
    obtain ⟨rfl, rfl, hes⟩ := hf
    obtain ⟨⟨c₁, n⟩, ht, rfl⟩ := Option.map_eq_some_iff.mp hr
    exact touchBatchAt_read_eq_zero_iff h hes ht hu (hother b hb) hi
  | touch => exact hs.elim
  | touchAt => exact hs.elim
  | prefetchBatchAt => exact hs.elim

/-- The slices a call does not name are zero after it exactly if it sweeps them. -/
theorem run_zeroOutside_iff (h : c.Wf) (hs : call.Serves t es) (hf : L.Follows src call)
    (hr : call.run src c = some c') : L.ZeroOutside t es c'.mem ↔ L.Sweeps t es c call := by
  have hread : ∀ e ∉ es, L.Uses (t, e) → ∀ i < L.bytes t,
      (c'.mem.read ((L.slice (t, e)).sliceAddr + i) = 0 ↔
        c.mem.read ((L.slice (t, e)).sliceAddr + i) = 0 ∨
          L.Reclaims c.toIndex ((L.slice (t, e)).sliceAddr + i) call) := by
    intro e he hu i hi
    rw [or_comm]
    exact run_read_eq_zero_iff h hs hf hr he hu hi
  constructor
  · intro hz e he hu i hi
    exact (hread e he hu i hi).mp (hz e he hu i hi)
  · intro hsw e he hu i hi
    exact (hread e he hu i hi).mpr (hsw e he hu i hi)

theorem Layout.reachable_wf (h : (L.system cap).Reachable c) : c.Wf := by
  apply h.invariant
  · rintro _ rfl
    exact wf_empty cap
  · rintro c ⟨src, call⟩ c' hwf ⟨_, hr⟩
    exact (run_wf hwf hr).1

theorem Layout.Serving.zeroOutside_iff (h : L.Serving t es call c c') :
    L.ZeroOutside t es c'.mem ↔ L.Sweeps t es c call := by
  obtain ⟨cap, hreach⟩ := h.history
  obtain ⟨src, hf, hr⟩ := h.run
  exact run_zeroOutside_iff (reachable_wf hreach) h.serves hf hr

/-- Two windows that are zero outside `es` differ only where the slices of `es` do. -/
theorem Layout.ZeroOutside.sameWindow {m m' : PagedMemory} (h : L.ZeroOutside t es m)
    (h' : L.ZeroOutside t es m') (hr : ∀ e ∈ es, L.Reads m (t, e))
    (hr' : ∀ e ∈ es, L.Reads m' (t, e)) : L.SameWindow t m m' := by
  intro e hu i hi
  by_cases he : e ∈ es
  · rw [hr e he i hi, hr' e he i hi]
  · rw [h e he hu i hi, h' e he hu i hi]

/-- After any history, the slices a call does not name are zero after it exactly if it sweeps them;
two such calls after different histories leave the same window if they serve what they name. -/
theorem Layout.Serving.residue (h : L.Serving t es call c c') :
    (L.ZeroOutside t es c'.mem ↔ L.Sweeps t es c call) ∧
      ∀ call' d d', L.Serving t es call' d d' → L.Sweeps t es c call → L.Sweeps t es d call' →
        (∀ e ∈ es, L.Reads c'.mem (t, e)) → (∀ e ∈ es, L.Reads d'.mem (t, e)) →
          L.SameWindow t c'.mem d'.mem := by
  refine ⟨h.zeroOutside_iff, ?_⟩
  intro call' d d' h' hsw hsw' hr hr'
  have hz : L.ZeroOutside t es c'.mem := h.zeroOutside_iff.mpr hsw
  have hz' : L.ZeroOutside t es d'.mem := h'.zeroOutside_iff.mpr hsw'
  exact hz.sameWindow hz' hr hr'

end Serve

theorem mem_singleBatch (e f : UInt32) : f ∈ [e] ↔ f ∈ [e] := Iff.rfl

def singleBatch (e : UInt32) : Batch := ⟨[e], [e], List.nodup_singleton e, mem_singleBatch e⟩

/-- Touching one expert of a window of whole pages. -/
def pageTouch (e : UInt32) : Call := .touchBatch [65] (singleBatch e) 0 0 kPage

theorem serving_pageTouch {cap : Nat} (h : (pageTouch 0).run onesSource (fresh cap) = some c)
    (h' : (pageTouch 1).run onesSource c = some c') :
    (onesLayout 2 kPage).Serving [65] {1} (pageTouch 1) c c' where
  history := ⟨cap,
    .step (.start rfl) (a := (onesSource, _)) ⟨(onesLayout_follows (by decide)).1, h⟩⟩
  serves := ⟨rfl, rfl⟩
  run := ⟨_, (onesLayout_follows (by decide)).1, h'⟩

/-- Under a cap of one page, touching the second slice gives back the first. -/
theorem sweeps_pageTouch (h : (pageTouch 0).run onesSource (fresh kPage) = some c) :
    (onesLayout 2 kPage).Sweeps [65] {1} c (pageTouch 1) := by
  have hstate : ((pageTouch 0).run onesSource (fresh kPage)).map
      (fun c => (c.hardCapBytes, c.recency)) =
        some (kPage, [(keyOf ([65], 0), (onesLayout 2 kPage).slice ([65], 0))]) := by
    decide
  rw [h] at hstate
  obtain ⟨hcap, hrec⟩ := Prod.mk.inj (Option.some.inj hstate)
  intro e he hu i hi
  have hfirst : e = 0 := by
    have hlt : e.toNat < 2 := hu
    have hne : e.toNat ≠ 1 := fun h => he (Finset.mem_singleton.mpr (UInt32.toNat_inj.mp h))
    have hzero : e.toNat = 0 := by omega
    exact UInt32.toNat_inj.mp hzero
  subst hfirst
  refine Or.inr (Or.inl ⟨?_, (keyOf ([65], 0), (onesLayout 2 kPage).slice ([65], 0)), ?_, ?_, ?_⟩)
  · rw [hrec]
    decide
  · rw [hrec]
    exact List.mem_singleton.mpr rfl
  · rw [hrec, hcap]
    decide
  · rw [covers_iff (dvd_refl _)]
    exact ⟨Nat.le_add_right _ _, Nat.add_lt_add_left hi _⟩

/-- With room for one slice, the first is zero when the second is served. -/
theorem Layout.Serving.residue_second :
    (onesLayout 2 kPage).ZeroOutside [65] {1}
      ((((pageTouch 0).run onesSource (fresh kPage)).bind
        ((pageTouch 1).run onesSource)).get (by decide)).mem := by
  obtain ⟨c, hc, hc'⟩ := Option.bind_eq_some_iff.mp (Option.some_get
    (x := ((pageTouch 0).run onesSource (fresh kPage)).bind ((pageTouch 1).run onesSource))
    (by decide)).symm
  exact (Serving.residue (serving_pageTouch hc hc')).1.mpr (sweeps_pageTouch hc)

/-- With room for both, the first is still there when only the second is asked for. -/
theorem not_zeroOutside :
    ¬ ∀ (L : Layout) (t : Str) (es : Finset UInt32) (call : Call) (c c' : SliceCache),
      L.Serving t es call c c' → L.ZeroOutside t es c'.mem := by
  intro h
  have hrun : (((pageTouch 0).run onesSource (fresh 8192)).bind
      ((pageTouch 1).run onesSource)).map (fun c => c.mem.read 0) = some 1 := by
    decide
  obtain ⟨c', hc', hread⟩ := Option.map_eq_some_iff.mp hrun
  obtain ⟨c, hc, hc''⟩ := Option.bind_eq_some_iff.mp hc'
  have hzero := h _ _ _ _ c c' (serving_pageTouch hc hc'') 0 (by decide)
    (onesLayout_uses (by decide)) 0 (by decide)
  have hone : c'.mem.read 0 = 0 := hzero
  rw [hread] at hone
  cases hone

end NotreEngine.Cache
