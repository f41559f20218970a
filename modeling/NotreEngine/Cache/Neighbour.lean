import NotreEngine.Cache.Soundness

/-!
# Neighbouring slices

Dropping a slice gives back whole pages, so with slices of any size it may reach into slices that
stay. A run of pointer-mode calls keeps every resident slice intact as long as no eviction does.
-/
namespace NotreEngine.Cache

open Recency Transition PagedMemory Layout

variable {src : Source} {L : Layout} {c c' r : SliceCache} {p q : Str × UInt32}
  {ptr : Option Nat} {off : Nat} {found : Bool} {cap : Nat}

namespace Layout

/-- What stays when slice `p` is missing and room is made for it. -/
def kept (L : Layout) (cap : Nat) (p : Str × UInt32) (xs : List (UInt64 × Slice)) :
    List (UInt64 × Slice) :=
  roomFor Slice.bytes cap (L.bytes p.1) xs

/-- If slice `p` is missing, no page given back to make room for it has a non-zero source byte of
a slice that stays. -/
def EvictsCleanly (L : Layout) (cap : Nat) (p : Str × UInt32) (xs : List (UInt64 × Slice)) :
    Prop :=
  keyOf p ∉ keys xs → ∀ v ∈ xs, v ∉ L.kept cap p xs →
    ∀ q, L.Uses q → keyOf q ∈ keys (L.kept cap p xs) →
      ∀ i < L.bytes q.1, v.2.Covers ((L.slice q).sliceAddr + i) → L.data q i = 0

/-- The same along a list of slices touched in turn. -/
def EvictAllCleanly (L : Layout) (cap : Nat) :
    List (Str × UInt32) → List (UInt64 × Slice) → Prop
  | [], _ => True
  | p :: ps, xs => L.EvictsCleanly cap p xs ∧
      L.EvictAllCleanly cap ps (Recency.touch Slice.bytes cap (keyOf p) (L.slice p) xs)

/-- The pointer-mode calls. -/
def PointerMode : Call → Prop
  | .touch .. | .touchBatch .. => True
  | _ => False

def SparesNeighbours (L : Layout) (c : Index) : Call → Prop
  | .touch t e _ _ _ => L.EvictsCleanly c.hardCapBytes (t, e) c.recency
  | .touchBatch t b _ _ _ =>
    L.EvictAllCleanly c.hardCapBytes (b.uniq.map fun e => (t, e)) c.recency
  | _ => True

/-- Sequential runs of pointer-mode calls that follow the layout. -/
def pointerSystem (L : Layout) (cap : Nat) : System SliceCache (Source × Call) :=
  (L.system cap).restrict fun _ a => PointerMode a.2

/-- Every resident slice is byte-equal to its source. -/
def Intact (L : Layout) (c : SliceCache) : Prop :=
  ∀ p, L.Uses p → Resident c.toIndex p → L.Reads c.mem p

/-- Well-formed bookkeeping of slices in use. -/
def Represents (L : Layout) (c : SliceCache) : Prop := c.Wf ∧ L.Describes c.toIndex

/-- Slices of whole pages spare their neighbours whatever is evicted. -/
theorem evictsCleanly_of_pageMultiple (hL : L.PageMultiple) (h : c.Wf)
    (hd : L.Describes c.toIndex) : L.EvictsCleanly cap p c.recency := by
  intro _ v hv hout q hq hk i hi hcov
  obtain ⟨w, hw, rfl⟩ := hd v hv
  have hne : w ≠ q := by
    rintro rfl
    obtain ⟨s, hs⟩ := mem_keys.mp hk
    have := eq_of_mem_of_mem h.recency_nodup hv (roomFor_isPrefix.subset hs)
    exact hout (this ▸ hs)
  exact (not_covers (hL _) hw hq hne hi hcov).elim

end Layout

theorem touchLocked_represents (h : L.Represents c) (hp : L.Uses p)
    (ht : touchLocked src c (keyOf p) (L.slice p) ptr off = some (c', found)) : L.Represents c' := by
  refine ⟨(touchLocked_wf h.1 ht).1, ?_⟩
  intro x hx
  rw [touchLocked_recency h.1 ht] at hx
  rcases mem_of_mem_touch hx with hx | rfl
  · exact h.2 x hx
  · exact ⟨p, hp, rfl⟩

/-- What making room leaves at an address. -/
theorem RoomMade.mem_apply {bytes : Nat} (hr : RoomMade c bytes r) (hn : (keys c.recency).Nodup)
    (a : Nat) :
    r.mem a =
      if ∃ v ∈ c.recency, v ∉ r.recency ∧ v.2.Covers a then none else c.mem a := by
  obtain ⟨ev, hev, hmem, _⟩ := hr.evicted
  have hiff : (∃ v ∈ ev, v.2.Covers a) ↔ ∃ v ∈ c.recency, v ∉ r.recency ∧ v.2.Covers a := by
    rw [hev, keys_append, List.nodup_append] at hn
    constructor
    · rintro ⟨v, hv, hc⟩
      refine ⟨v, by rw [hev]; exact List.mem_append_right _ hv, fun hr => ?_, hc⟩
      exact hn.2.2 _ (mem_keys_of_mem hr) _ (mem_keys_of_mem hv) rfl
    · rintro ⟨v, hv, hr, hc⟩
      rw [hev] at hv
      exact ⟨v, (List.mem_append.mp hv).resolve_left hr, hc⟩
  rw [hmem, dropAll_apply]
  simp only [hiff]

/-- What a miss leaves of a slice that stays. -/
theorem Missed.mem_apply (hm : Missed src c (keyOf p) (L.slice p) ptr off r c')
    (hp : L.Uses p) (hq : L.Uses q) (hne : q ≠ p)
    (hdel : src.Delivers ptr off (L.bytes p.1) (L.data p)) {i : Nat} (hi : i < L.bytes q.1)
    (hn : (keys c.recency).Nodup) :
    c'.mem ((L.slice q).sliceAddr + i) =
      if ∃ v ∈ c.recency, v ∉ r.recency ∧ v.2.Covers ((L.slice q).sliceAddr + i) then none
      else c.mem ((L.slice q).sliceAddr + i) := by
  have hsame := same_write (L := L) (m := r.mem) hp hq (Ne.symm hne) (L.data p) i hi
  have hbytes : (L.slice p).bytes = L.bytes p.1 := rfl
  have hmem' := hm.mem _ hdel
  rw [hbytes] at hmem'
  rw [hmem', hsame, hm.room.mem_apply hn]

/-- A touch keeps the resident slices intact exactly when it evicts cleanly. -/
theorem touchLocked_intact_iff (h : L.Represents c) (hi : L.Intact c) (hp : L.Uses p)
    (hdel : src.Delivers ptr off (L.bytes p.1) (L.data p))
    (ht : touchLocked src c (keyOf p) (L.slice p) ptr off = some (c', found)) :
    L.Intact c' ↔ L.EvictsCleanly c.hardCapBytes p c.recency := by
  obtain ⟨hwf, hd⟩ := h
  rcases touchLocked_cases hwf ht with ⟨e, he, rfl, _⟩ | ⟨hk, _, r, hm⟩
  · have hin : keyOf p ∈ keys c.recency := hwf.mem_keys_iff.mpr ⟨e, he⟩
    refine iff_of_true ?_ fun hout => (hout hin).elim
    intro q hq hr
    rw [Resident, recency_refreshHit hwf he, keys_refresh_perm.mem_iff] at hr
    exact hi q hq hr
  · have hout : keyOf p ∉ keys c.recency := hwf.absent_iff.mpr hk
    have hkept : r.recency = L.kept c.hardCapBytes p c.recency := hm.room.recency
    have hne : ∀ q, Resident r.toIndex q → q ≠ p := by
      rintro q hr rfl
      exact hout (keys_subset (by rw [hkept]; exact roomFor_isPrefix.subset) hr)
    constructor
    · intro hc' _ v hv hvout q hq hkq i hiq hcov
      rw [← hkept] at hvout hkq
      have hres : Resident c'.toIndex q := by
        rw [Resident, hm.recency]
        split
        · exact List.mem_cons_of_mem _ hkq
        · exact hkq
      have hread := hc' q hq hres i hiq
      rw [PagedMemory.read, hm.mem_apply hp hq (hne q hkq) hdel hiq hwf.recency_nodup,
        if_pos ⟨v, hv, hvout, hcov⟩] at hread
      exact hread.symm
    · intro hclean q hq hr
      by_cases hqp : q = p
      · rw [hqp]
        apply Filled.reads
        rw [Filled, hm.mem _ hdel]
        exact holds_write
      · have hkq : Resident r.toIndex q := by
          rw [Resident, hm.recency] at hr
          split at hr
          · rcases List.mem_cons.mp hr with hr | hr
            · exact (hqp (L.key_injective q p hq hp hr)).elim
            · exact hr
          · exact hr
        intro i hiq
        rw [PagedMemory.read, hm.mem_apply hp hq hqp hdel hiq hwf.recency_nodup]
        split
        · rename_i hex
          obtain ⟨v, hv, hvout, hcov⟩ := hex
          rw [hkept] at hvout
          have hkq' : keyOf q ∈ keys (L.kept c.hardCapBytes p c.recency) := hkept ▸ hkq
          exact (hclean hout v hv hvout q hq hkq' i hiq hcov).symm
        · have hres : Resident c.toIndex q := by
            apply keys_subset _ hkq
            rw [hkept]
            exact roomFor_isPrefix.subset
          exact hi q hq hres i hiq

theorem touchEach_intact {t : Str} {es : List UInt32} {srcBase n n' : Nat} (h : L.Represents c)
    (hi : L.Intact c)
    (hes : ∀ e ∈ es, L.Uses (t, e) ∧
      src.Delivers (some (srcBase + e.toNat * L.bytes t)) 0 (L.bytes t) (L.data (t, e)))
    (hclean : L.EvictAllCleanly c.hardCapBytes (es.map fun e => (t, e)) c.recency)
    (ht : touchEach src t (L.base t) srcBase (L.bytes t) es c n = some (c', n')) :
    L.Represents c' ∧ L.Intact c' := by
  induction es generalizing c n with
  | nil =>
    cases ht
    exact ⟨h, hi⟩
  | cons e es ih =>
    obtain ⟨c₁, found, h₁, hrest⟩ := touchEach_cons ht
    obtain ⟨hp, hdel⟩ := hes e (by simp)
    have hrep : L.Represents c₁ := touchLocked_represents h (p := (t, e)) hp h₁
    have hintact : L.Intact c₁ :=
      (touchLocked_intact_iff h hi (p := (t, e)) hp hdel h₁).mpr hclean.1
    have hrec := touchLocked_recency h.1 h₁
    have hcap := (touchLocked_wf h.1 h₁).2
    apply ih hrep hintact (fun f hf => hes f (by simp [hf])) _ hrest
    rw [hcap, hrec]
    exact hclean.2

theorem run_intact {call : Call} (h : L.Represents c) (hi : L.Intact c) (hf : L.Follows src call)
    (hmode : PointerMode call) (hclean : L.SparesNeighbours c.toIndex call)
    (hr : call.run src c = some c') : L.Represents c' ∧ L.Intact c' := by
  cases call with
  | touch t e dest ptr bytes =>
    obtain ⟨hp, hs, hdel⟩ := hf
    obtain ⟨⟨c₁, found⟩, ht, rfl⟩ := Option.map_eq_some_iff.mp hr
    obtain ⟨_, _, rfl, rfl⟩ := Slice.mk.inj hs
    exact ⟨touchLocked_represents h (p := (t, e)) hp ht,
      (touchLocked_intact_iff h hi (p := (t, e)) hp hdel ht).mpr hclean⟩
  | touchBatch t b base ptr bytes =>
    obtain ⟨rfl, rfl, hes⟩ := hf
    obtain ⟨⟨c₁, n⟩, ht, rfl⟩ := Option.map_eq_some_iff.mp hr
    exact touchEach_intact (c := countDedup c b) h hi
      (fun e he => hes e ((b.mem_uniq e).mp he)) hclean ht
  | touchAt => exact hmode.elim
  | touchBatchAt => exact hmode.elim
  | prefetchBatchAt => exact hmode.elim

/-- Runs of pointer-mode calls that spare the neighbours of what they evict. -/
theorem intact_of_sparesNeighbours (L : Layout) (cap : Nat)
    (tr : List ((Source × Call) × SliceCache)) (ht : (L.pointerSystem cap).Trace (fresh cap) tr)
    (hg : Guarded (fun c a => L.SparesNeighbours c.toIndex a.2) (fresh cap) tr) :
    ∀ x ∈ tr, L.Intact x.2 := by
  have hfresh : L.Represents (fresh cap) ∧ L.Intact (fresh cap) := by
    refine ⟨⟨wf_empty cap, ?_⟩, ?_⟩
    · intro x hx
      cases hx
    · intro p _ hr
      cases hr
  intro x hx
  have hall := ht.forall_of_guarded (P := fun c => L.Represents c ∧ L.Intact c)
    (by
      rintro c ⟨src, call⟩ c' ⟨hk, hi⟩ ⟨⟨hf, hr⟩, hmode⟩ hclean
      exact run_intact hk hi hf hmode hclean hr)
    hfresh hg
  exact (hall x hx).2

def tripleBatch : Batch := ⟨[0, 1, 2], [0, 1, 2], by decide, by simp⟩

/-- Touching the first `n` experts of a window of slices of 100 bytes. -/
def smallTouch (b : Batch) : Call := .touchBatch [65] b 0 0 100

theorem smallTouch_trace {n cap : Nat} {b : Batch}
    (hb : (b.experts.all fun e => e.toNat < n) = true)
    (h : (smallTouch b).run onesSource (fresh cap) = some c') :
    ((onesLayout n 100).pointerSystem cap).Trace (fresh cap) [((onesSource, smallTouch b), c')] :=
  .cons ⟨⟨(onesLayout_follows hb).1, h⟩, trivial⟩ (.nil _)

/-- Two small slices that both fit. -/
theorem intact_of_sparesNeighbours_pair :
    (onesLayout 2 100).Intact
      (((smallTouch pairBatch).run onesSource (fresh 8192)).get (by decide)) := by
  refine intact_of_sparesNeighbours (onesLayout 2 100) 8192 _
    (smallTouch_trace (by decide) (Option.some_get (by decide)).symm) ?_ _
    (List.mem_singleton.mpr rfl)
  refine ⟨⟨?_, ?_, trivial⟩, trivial⟩
  · intro _ v hv
    cases hv
  · intro _ v hv hout
    have hkept : (onesLayout 2 100).kept 8192 ([65], 1) (Recency.touch Slice.bytes 8192
        (keyOf ([65], 0)) ((onesLayout 2 100).slice ([65], 0)) []) = Recency.touch Slice.bytes 8192
        (keyOf ([65], 0)) ((onesLayout 2 100).slice ([65], 0)) [] := by decide
    exact (hout (hkept.symm ▸ hv)).elim

/-- Three slices of 100 bytes on one page, with room for two: dropping the first one zeroes the
second, which stays. -/
theorem not_intact :
    ¬ ∀ (L : Layout) (cap : Nat) (tr : List ((Source × Call) × SliceCache)),
      (L.pointerSystem cap).Trace (fresh cap) tr → ∀ x ∈ tr, L.Intact x.2 := by
  intro h
  have hrun : ((smallTouch tripleBatch).run onesSource (fresh 250)).map
      (fun c => (c.mem.read 100, decide (keyOf ([65], 1) ∈ keys c.recency))) = some (0, true) := by
    decide
  obtain ⟨c', hc', heq⟩ := Option.map_eq_some_iff.mp hrun
  obtain ⟨hzero, hres⟩ := Prod.mk.inj heq
  have hintact := h (onesLayout 3 100) 250 _ (smallTouch_trace (by decide) hc') _
    (List.mem_singleton.mpr rfl)
  have hin : keyOf ([65], 1) ∈ keys c'.recency := of_decide_eq_true hres
  have hread := hintact ([65], 1) (onesLayout_uses (by decide)) hin 0 (by decide)
  have hone : c'.mem.read 100 = 1 := hread
  rw [hzero] at hone
  cases hone

end NotreEngine.Cache
