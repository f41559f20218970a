import NotreEngine.Cache.Calls

/-!
# Windows and what they hold

Every fused tensor has one page-aligned window, its slices lie back to back in it, and each slice
has its bytes in the model. The lemmas say which slices a fill or a drop of pages can reach.
-/
namespace NotreEngine.Cache

open Recency PagedMemory

/-- The windows of the tensors in use, with the contents their slices are meant to have. -/
structure Layout where
  count : Str → Nat
  base : Str → Nat
  bytes : Str → Nat
  data : Str × UInt32 → Nat → UInt8
  base_aligned : ∀ t, kPage ∣ base t
  windows_apart : ∀ t t', t ≠ t' → 0 < count t → 0 < count t' →
    Apart (base t) (spanPages (base t) (count t * bytes t))
      (base t') (spanPages (base t') (count t' * bytes t'))
  key_injective : ∀ p q : Str × UInt32, p.2.toNat < count p.1 → q.2.toNat < count q.1 →
    key p.1 p.2 = key q.1 q.2 → p = q

/-- Address `a` lies in the pages that dropping slice `v` gives back. -/
def Slice.Covers (v : Slice) (a : Nat) : Prop :=
  pageFloor v.sliceAddr ≤ a ∧ a < pageFloor v.sliceAddr + spanPages v.sliceAddr v.bytes

instance (v : Slice) (a : Nat) : Decidable (v.Covers a) := by
  unfold Slice.Covers
  infer_instance

namespace Layout

variable (L : Layout)

def Uses (p : Str × UInt32) : Prop := p.2.toNat < L.count p.1

def slice (p : Str × UInt32) : Slice := windowSlice p.1 (L.base p.1) (L.bytes p.1) p.2

def keyOf (p : Str × UInt32) : UInt64 := key p.1 p.2

/-- The slice has been filled with its bytes and not been dropped since. -/
def Filled (m : PagedMemory) (p : Str × UInt32) : Prop :=
  m.Holds (L.slice p).sliceAddr (L.data p) (L.bytes p.1)

/-- No byte of the slice has been written since its pages were last dropped. -/
def Dropped (m : PagedMemory) (p : Str × UInt32) : Prop :=
  ∀ i < L.bytes p.1, m ((L.slice p).sliceAddr + i) = none

/-- The window slice is byte-equal to its source. -/
def Reads (m : PagedMemory) (p : Str × UInt32) : Prop :=
  ∀ i < L.bytes p.1, m.read ((L.slice p).sliceAddr + i) = L.data p i

def Same (m m' : PagedMemory) (p : Str × UInt32) : Prop :=
  ∀ i < L.bytes p.1, m' ((L.slice p).sliceAddr + i) = m ((L.slice p).sliceAddr + i)

/-- Every byte of the slice is as before or has been written anew. -/
def Keeps (m m' : PagedMemory) (p : Str × UInt32) : Prop :=
  ∀ i < L.bytes p.1, m' ((L.slice p).sliceAddr + i) = m ((L.slice p).sliceAddr + i) ∨
    m' ((L.slice p).sliceAddr + i) = some (L.data p i)

/-- Every byte of the slice has been written with its own or not been written since its page was
last dropped. -/
def Authentic (m : PagedMemory) (p : Str × UInt32) : Prop :=
  ∀ i < L.bytes p.1, m ((L.slice p).sliceAddr + i) = none ∨
    m ((L.slice p).sliceAddr + i) = some (L.data p i)

/-- Nothing of the slice is lost: what has not been written since its page was last dropped is
zero. -/
def Survives (m : PagedMemory) (p : Str × UInt32) : Prop :=
  ∀ i < L.bytes p.1, m ((L.slice p).sliceAddr + i) = none → L.data p i = 0

/-- Every resident slice is one in use, under its key. -/
def Describes (c : Index) : Prop :=
  ∀ x ∈ c.recency, ∃ p, L.Uses p ∧ x = (keyOf p, L.slice p)

def Resident (c : Index) (p : Str × UInt32) : Prop := keyOf p ∈ keys c.recency

/-- Slices fill whole pages. -/
def PageMultiple : Prop := ∀ t, kPage ∣ L.bytes t

/-- The resident slices fill whole pages. -/
def Paged (c : Index) : Prop := ∀ x ∈ c.recency, kPage ∣ x.2.bytes

variable {L} {m m' m'' : PagedMemory} {p q : Str × UInt32} {c c' c'' : SliceCache} {a : Nat}

theorem Filled.reads (h : L.Filled m p) : L.Reads m p := fun _ hi => Holds.read_eq h hi

theorem Same.filled (h : L.Same m m' p) (hf : L.Filled m p) : L.Filled m' p := by
  intro i hi
  exact (h i hi).trans (hf i hi)

theorem Same.dropped (h : L.Same m m' p) (hd : L.Dropped m p) : L.Dropped m' p := by
  intro i hi
  exact (h i hi).trans (hd i hi)

theorem Same.trans (h : L.Same m m' p) (h' : L.Same m' m'' p) : L.Same m m'' p :=
  fun i hi => (h' i hi).trans (h i hi)

theorem Same.refl : L.Same m m p := fun _ _ => rfl

theorem Same.keeps (h : L.Same m m' p) : L.Keeps m m' p := fun i hi => Or.inl (h i hi)

theorem Filled.keeps (h : L.Filled m' p) : L.Keeps m m' p := fun i hi => Or.inr (h i hi)

theorem Keeps.trans (h : L.Keeps m m' p) (h' : L.Keeps m' m'' p) : L.Keeps m m'' p := by
  intro i hi
  rcases h' i hi with heq | heq
  · rw [heq]
    exact h i hi
  · exact Or.inr heq

theorem Keeps.filled (h : L.Keeps m m' p) (hf : L.Filled m p) : L.Filled m' p := by
  intro i hi
  rcases h i hi with heq | heq
  · exact heq.trans (hf i hi)
  · exact heq

theorem Keeps.reads (h : L.Keeps m m' p) (hr : L.Reads m p) : L.Reads m' p := by
  intro i hi
  rcases h i hi with heq | heq
  · rw [PagedMemory.read, heq]
    exact hr i hi
  · rw [PagedMemory.read, heq]
    rfl

theorem Keeps.authentic (h : L.Keeps m m' p) (ha : L.Authentic m p) : L.Authentic m' p := by
  intro i hi
  rcases h i hi with heq | heq
  · rw [heq]
    exact ha i hi
  · exact Or.inr heq

theorem Dropped.authentic (h : L.Dropped m p) : L.Authentic m p := fun i hi => Or.inl (h i hi)

/-- Of the bytes that are its own a slice reads as its source if none of the others is lost. -/
theorem Authentic.reads (h : L.Authentic m p) (hs : L.Survives m p) : L.Reads m p := by
  intro i hi
  rcases h i hi with heq | heq
  · rw [PagedMemory.read, heq, hs i hi heq]
    rfl
  · rw [PagedMemory.read, heq]
    rfl

theorem Dropped.not_filled (h : L.Dropped m p) (hb : 0 < L.bytes p.1) : ¬ L.Filled m p := by
  intro hf
  have := (h 0 hb).symm.trans (hf 0 hb)
  cases this

theorem PageMultiple.paged (hL : L.PageMultiple) (hd : L.Describes c.toIndex) :
    Paged c.toIndex := by
  intro x hx
  obtain ⟨p, _, rfl⟩ := hd x hx
  exact hL p.1

theorem Resident.of_keys (h : c'.recency ⊆ c.recency) (hr : Resident c'.toIndex p) :
    Resident c.toIndex p := keys_subset h hr

section Geometry

theorem pageFloor_mono {a b : Nat} (h : a ≤ b) : pageFloor a ≤ pageFloor b := by
  unfold pageFloor kPage
  omega

theorem pageFloor_of_dvd (h : kPage ∣ a) : pageFloor a = a := by
  unfold pageFloor
  rw [Nat.mod_eq_zero_of_dvd h, Nat.sub_zero]

theorem spanPages_eq (s bytes : Nat) :
    spanPages s bytes = pageFloor (s + bytes + kPage - 1) - pageFloor s := rfl

theorem slice_addr (p : Str × UInt32) :
    (L.slice p).sliceAddr = L.base p.1 + p.2.toNat * L.bytes p.1 := rfl

/-- A slice ends within its window. -/
theorem slice_end_le (hp : L.Uses p) :
    (L.slice p).sliceAddr + L.bytes p.1 ≤ L.base p.1 + L.count p.1 * L.bytes p.1 := by
  have := Nat.mul_le_mul_right (L.bytes p.1) (Nat.succ_le_of_lt hp)
  rw [Nat.succ_mul] at this
  rw [slice_addr]
  omega

theorem window_end_le (t : Str) :
    L.base t + L.count t * L.bytes t ≤
      L.base t + spanPages (L.base t) (L.count t * L.bytes t) := by
  have := pageFloor_of_dvd (L.base_aligned t)
  rw [spanPages_eq, this]
  unfold pageFloor kPage
  omega

/-- Different slices in use share no byte. -/
theorem slices_apart (hp : L.Uses p) (hq : L.Uses q) (h : p ≠ q) :
    Apart (L.slice p).sliceAddr (L.bytes p.1) (L.slice q).sliceAddr (L.bytes q.1) := by
  by_cases ht : p.1 = q.1
  · have he : p.2.toNat ≠ q.2.toNat := by
      intro he
      exact h (Prod.ext ht (UInt32.toNat_inj.mp he))
    rw [slice_addr, slice_addr, ← ht]
    unfold Apart
    rcases Nat.lt_or_gt_of_ne he with hlt | hlt
    · left
      have := Nat.mul_le_mul_right (L.bytes p.1) (Nat.succ_le_of_lt hlt)
      rw [Nat.succ_mul] at this
      omega
    · right
      have := Nat.mul_le_mul_right (L.bytes p.1) (Nat.succ_le_of_lt hlt)
      rw [Nat.succ_mul] at this
      omega
  · have hapart := L.windows_apart p.1 q.1 ht (Nat.zero_lt_of_lt hp) (Nat.zero_lt_of_lt hq)
    have hep := slice_end_le hp
    have heq := slice_end_le hq
    have hwp := L.window_end_le p.1
    have hwq := L.window_end_le q.1
    have hap := L.slice_addr p
    have haq := L.slice_addr q
    unfold Apart at hapart ⊢
    omega

/-- A slice of whole pages is exactly what dropping it gives back. -/
theorem covers_iff (hL : kPage ∣ L.bytes p.1) :
    (L.slice p).Covers a ↔
      (L.slice p).sliceAddr ≤ a ∧ a < (L.slice p).sliceAddr + L.bytes p.1 := by
  have haddr : kPage ∣ (L.slice p).sliceAddr :=
    dvd_add (L.base_aligned p.1) (Dvd.dvd.mul_left hL _)
  have hend : kPage ∣ (L.slice p).sliceAddr + L.bytes p.1 := dvd_add haddr hL
  have hstop : pageFloor ((L.slice p).sliceAddr + L.bytes p.1 + kPage - 1) =
      (L.slice p).sliceAddr + L.bytes p.1 := by
    obtain ⟨n, hn⟩ := hend
    rw [hn]
    unfold pageFloor kPage
    omega
  have hbytes : (L.slice p).bytes = L.bytes p.1 := rfl
  rw [Slice.Covers, spanPages_eq, hbytes, hstop, pageFloor_of_dvd haddr]
  omega

theorem not_covers (hL : kPage ∣ L.bytes p.1) (hp : L.Uses p) (hq : L.Uses q) (h : p ≠ q) {i : Nat}
    (hi : i < L.bytes q.1) : ¬ (L.slice p).Covers ((L.slice q).sliceAddr + i) := by
  rw [covers_iff hL]
  have := slices_apart hp hq h
  unfold Apart at this
  omega

end Geometry

section Memory

theorem filled_write : L.Filled (m.write (L.slice p).sliceAddr (L.data p) (L.bytes p.1)) p :=
  holds_write

/-- Writing the front of a slice leaves the others alone. -/
theorem same_write_le {n : Nat} (hp : L.Uses p) (hq : L.Uses q) (h : p ≠ q) (data : Nat → UInt8)
    (hn : n ≤ L.bytes p.1) : L.Same m (m.write (L.slice p).sliceAddr data n) q := by
  intro i hi
  exact write_of_apart ((slices_apart hq hp h.symm).mono hn) hi

theorem same_write (hp : L.Uses p) (hq : L.Uses q) (h : p ≠ q) (data : Nat → UInt8) :
    L.Same m (m.write (L.slice p).sliceAddr data (L.bytes p.1)) q :=
  same_write_le hp hq h data le_rfl

theorem keeps_write (n : Nat) : L.Keeps m (m.write (L.slice p).sliceAddr (L.data p) n) p := by
  intro i _
  by_cases hi : i < n
  · right
    rw [PagedMemory.write, if_pos (by omega), Nat.add_sub_cancel_left]
  · exact Or.inl (if_neg (by omega))

/-- What dropping the pages of several slices leaves at one address. -/
theorem dropAll_apply (xs : List (UInt64 × Slice)) (m : PagedMemory) (a : Nat) :
    dropAll xs m a = if ∃ x ∈ xs, x.2.Covers a then none else m a := by
  induction xs with
  | nil => simp [dropAll]
  | cons x xs ih =>
    have hcons : dropAll (x :: xs) m a = (dropAll xs m).discard (pageFloor x.2.sliceAddr)
        (spanPages x.2.sliceAddr x.2.bytes) a := rfl
    rw [hcons]
    by_cases hx : x.2.Covers a
    · have hex : ∃ y ∈ x :: xs, y.2.Covers a := ⟨x, by simp, hx⟩
      rw [if_pos hex]
      exact discard_mem hx
    · have hsplit : (∃ y ∈ x :: xs, y.2.Covers a) ↔ ∃ y ∈ xs, y.2.Covers a := by simp [hx]
      simp only [hsplit]
      rw [← ih]
      exact if_neg hx

variable {ev : List (UInt64 × Slice)}

theorem same_dropAll (hpg : ∀ x ∈ ev, kPage ∣ x.2.bytes)
    (hev : ∀ x ∈ ev, ∃ p, L.Uses p ∧ x = (keyOf p, L.slice p)) (hq : L.Uses q)
    (h : keyOf q ∉ keys ev) : L.Same m (dropAll ev m) q := by
  intro i hi
  rw [dropAll_apply, if_neg]
  rintro ⟨x, hx, hc⟩
  obtain ⟨p, hp, rfl⟩ := hev x hx
  have hne : p ≠ q := by
    rintro rfl
    exact h (mem_keys_of_mem hx)
  exact not_covers (hpg _ hx) hp hq hne hi hc

theorem dropped_dropAll (hpg : ∀ x ∈ ev, kPage ∣ x.2.bytes)
    (hev : ∀ x ∈ ev, ∃ p, L.Uses p ∧ x = (keyOf p, L.slice p)) (hq : L.Uses q)
    (h : keyOf q ∈ keys ev) : L.Dropped (dropAll ev m) q := by
  intro i hi
  rw [dropAll_apply, if_pos]
  obtain ⟨s, hs⟩ := mem_keys.mp h
  obtain ⟨p, hp, heq⟩ := hev _ hs
  obtain ⟨hk, rfl⟩ := Prod.mk.inj heq
  obtain rfl := L.key_injective q p hq hp hk
  refine ⟨_, hs, (covers_iff (hpg _ hs)).mpr ?_⟩
  omega

end Memory

/-- From `c` to `c'` slices are only dropped, each with its pages; all other slices keep their
bytes. -/
structure Drops (L : Layout) (c c' : SliceCache) : Prop where
  subset : c'.recency ⊆ c.recency
  dropped : ∀ p, L.Uses p → Resident c.toIndex p → ¬ Resident c'.toIndex p → L.Dropped c'.mem p
  same : ∀ p, L.Uses p → (Resident c.toIndex p → Resident c'.toIndex p) → L.Same c.mem c'.mem p

theorem Drops.refl : L.Drops c c :=
  ⟨List.Subset.refl _, fun _ _ h hn => (hn h).elim, fun _ _ _ => .refl⟩

theorem Drops.trans (h : L.Drops c c') (h' : L.Drops c' c'') : L.Drops c c'' := by
  refine ⟨List.Subset.trans h'.subset h.subset, ?_, ?_⟩
  · intro p hp hr hn
    by_cases hr' : Resident c'.toIndex p
    · exact h'.dropped p hp hr' hn
    · exact (h'.same p hp fun hr => (hr' hr).elim).dropped (h.dropped p hp hr hr')
  · intro p hp hr
    have hr' : Resident c.toIndex p → Resident c'.toIndex p :=
      fun hc => Resident.of_keys h'.subset (hr hc)
    refine (h.same p hp hr').trans (h'.same p hp fun hc => ?_)
    exact hr (Resident.of_keys h.subset hc)

theorem Drops.describes (h : L.Drops c c') (hd : L.Describes c.toIndex) :
    L.Describes c'.toIndex := fun x hx => hd x (h.subset hx)

theorem Drops.paged (h : L.Drops c c') (hpg : Paged c.toIndex) : Paged c'.toIndex :=
  fun x hx => hpg x (h.subset hx)

theorem drops_roomMade {bytes : Nat} (hpg : Paged c.toIndex) (hd : L.Describes c.toIndex)
    (hwf : c.Wf) (h : RoomMade c bytes c') : L.Drops c c' := by
  obtain ⟨ev, hev, hmem, _⟩ := h.evicted
  have hsub : ∀ x ∈ ev, ∃ p, L.Uses p ∧ x = (keyOf p, L.slice p) := by
    intro x hx
    exact hd x (by rw [hev]; exact List.mem_append_right _ hx)
  have hpev : ∀ x ∈ ev, kPage ∣ x.2.bytes := by
    intro x hx
    exact hpg x (by rw [hev]; exact List.mem_append_right _ hx)
  have hkeys : ∀ p, Resident c.toIndex p ↔ Resident c'.toIndex p ∨ keyOf p ∈ keys ev := by
    intro p
    rw [Resident, hev, keys_append, List.mem_append]
    rfl
  refine ⟨?_, ?_, ?_⟩
  · rw [hev]
    exact List.subset_append_left _ _
  · intro p hp hr hn
    rw [hmem]
    exact dropped_dropAll hpev hsub hp (((hkeys p).mp hr).resolve_left hn)
  · intro p hp hr
    rw [hmem]
    apply same_dropAll hpev hsub hp
    intro hk
    have hnd := hwf.recency_nodup
    rw [hev, keys_append, List.nodup_append] at hnd
    exact hnd.2.2 _ (hr ((hkeys p).mpr (Or.inr hk))) _ hk rfl

theorem drops_of_eq {c c' : SliceCache} (hk : c'.recency.Perm c.recency) (hm : c'.mem = c.mem) :
    L.Drops c c' := by
  have hiff : ∀ p, Resident c'.toIndex p ↔ Resident c.toIndex p :=
    fun p => (hk.map Prod.fst).mem_iff
  refine ⟨hk.subset, ?_, ?_⟩
  · intro p _ hr hn
    exact (hn ((hiff p).mpr hr)).elim
  · intro p _ _
    rw [hm]
    exact .refl

end Layout

/-- One window at address zero, with `n` slices of ones. -/
def onesLayout (n bytes : Nat) : Layout where
  count t := if t = [65] then n else 0
  base _ := 0
  bytes _ := bytes
  data _ _ := 1
  base_aligned _ := dvd_zero _
  windows_apart t t' h ht ht' := by
    have hone : ∀ u : Str, 0 < (if u = [65] then n else 0) → u = [65] := by
      intro u hu
      by_contra hn
      simp [hn] at hu
    exact (h ((hone t ht).trans (hone t' ht').symm)).elim
  key_injective p q hp hq h := by
    have hp' : p.1 = [65] := by
      by_contra hn
      simp [hn] at hp
    have hq' : q.1 = [65] := by
      by_contra hn
      simp [hn] at hq
    refine Prod.ext (hp'.trans hq'.symm) (key_injective [65] ?_)
    rwa [hp', hq'] at h

theorem onesLayout_uses {n bytes : Nat} {e : UInt32} (he : e.toNat < n) :
    (onesLayout n bytes).Uses ([65], e) := he

theorem onesLayout_pageMultiple {n : Nat} : (onesLayout n kPage).PageMultiple :=
  fun _ => dvd_refl _

end NotreEngine.Cache
