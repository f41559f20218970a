import Mathlib.Tactic
import Mathlib.Data.List.TakeWhile

/-!
# Recency lists

Sized items in order of use, most recent first. Room is made from the least recent end, so what
stays is always the longest prefix that fits.
-/

namespace Recency

variable {κ ι : Type*} (size : ι → Nat)

def keys (xs : List (κ × ι)) : List κ := xs.map Prod.fst

def total (xs : List (κ × ι)) : Nat := (xs.map fun x => size x.2).sum

/-- The longest prefix whose sizes add up to at most `room`. -/
def fitting : Nat → List (κ × ι) → List (κ × ι)
  | _, [] => []
  | room, x :: xs => if size x.2 ≤ room then x :: fitting (room - size x.2) xs else []

/-- What stays once the least recent items have made room for `bytes` under `cap`. -/
def roomFor (cap bytes : Nat) (xs : List (κ × ι)) : List (κ × ι) :=
  if bytes ≤ cap then fitting size (cap - bytes) xs else []

variable {size} {xs ys : List (κ × ι)} {x : κ × ι} {k : κ} {v : ι} {cap b room : Nat}

@[simp] theorem keys_nil : keys ([] : List (κ × ι)) = [] := rfl

@[simp] theorem keys_cons : keys (x :: xs) = x.1 :: keys xs := rfl

@[simp] theorem keys_append : keys (xs ++ ys) = keys xs ++ keys ys := List.map_append

theorem mem_keys : k ∈ keys xs ↔ ∃ v, (k, v) ∈ xs := by simp [keys]

theorem mem_keys_of_mem (h : x ∈ xs) : x.1 ∈ keys xs := List.mem_map_of_mem h

theorem keys_subset (h : xs ⊆ ys) : keys xs ⊆ keys ys := List.map_subset _ h

theorem keys_nodup_of_isPrefix (h : xs <+: ys) (hn : (keys ys).Nodup) : (keys xs).Nodup :=
  (h.sublist.map Prod.fst).nodup hn

/-- With distinct keys an item is determined by its key. -/
theorem eq_of_mem_of_mem {v w : ι} (hn : (keys xs).Nodup) (hv : (k, v) ∈ xs)
    (hw : (k, w) ∈ xs) : v = w := by
  have := List.inj_on_of_nodup_map hn hv hw rfl
  simpa using this

@[simp] theorem total_nil : total size ([] : List (κ × ι)) = 0 := rfl

@[simp] theorem total_cons : total size (x :: xs) = size x.2 + total size xs := by simp [total]

@[simp] theorem total_append : total size (xs ++ ys) = total size xs + total size ys := by
  simp [total]

theorem total_perm (h : xs.Perm ys) : total size xs = total size ys := (h.map _).sum_eq

theorem total_le_of_isPrefix (h : xs <+: ys) : total size xs ≤ total size ys := by
  obtain ⟨zs, rfl⟩ := h
  simp

theorem total_uniform (h : ∀ x ∈ xs, size x.2 = b) : total size xs = xs.length * b := by
  induction xs with
  | nil => simp
  | cons x xs ih =>
    have hx := h x (by simp)
    have := ih (fun y hy => h y (by simp [hy]))
    simp only [total_cons, hx, this, List.length_cons]
    ring

theorem fitting_isPrefix : fitting size room xs <+: xs := by
  induction xs generalizing room with
  | nil => simp [fitting]
  | cons x xs ih =>
    rw [fitting]
    split
    · exact (List.prefix_cons_inj x).mpr ih
    · exact List.nil_prefix

theorem total_fitting_le : total size (fitting size room xs) ≤ room := by
  induction xs generalizing room with
  | nil => simp [fitting]
  | cons x xs ih =>
    rw [fitting]
    split
    · have : total size (fitting size (room - size x.2) xs) ≤ room - size x.2 := ih
      simp only [total_cons]
      omega
    · simp

theorem fitting_of_total_le (h : total size xs ≤ room) : fitting size room xs = xs := by
  induction xs generalizing room with
  | nil => rfl
  | cons x xs ih =>
    rw [total_cons] at h
    rw [fitting, if_pos (by omega), ih (by omega)]

/-- Every prefix that fits is kept whole. -/
theorem prefix_fitting (h : ys <+: xs) (ht : total size ys ≤ room) :
    ys <+: fitting size room xs := by
  induction ys generalizing xs room with
  | nil => exact List.nil_prefix
  | cons y ys ih =>
    obtain ⟨zs, rfl⟩ := h
    rw [total_cons] at ht
    rw [List.cons_append, fitting, if_pos (by omega)]
    exact (List.prefix_cons_inj y).mpr (ih (List.prefix_append ys zs) (by omega))

/-- Dropping the least recent item of an overfull list does not change what fits. -/
theorem fitting_append_singleton (h : room < total size (xs ++ [x])) :
    fitting size room (xs ++ [x]) = fitting size room xs := by
  induction xs generalizing room with
  | nil =>
    have : ¬ size x.2 ≤ room := by simpa using h
    simp [fitting, this]
  | cons y xs ih =>
    simp only [List.cons_append, fitting]
    split
    · rw [ih]
      simp only [List.cons_append, total_cons] at h
      omega
    · rfl

theorem roomFor_isPrefix : roomFor size cap b xs <+: xs := by
  unfold roomFor
  split
  · exact fitting_isPrefix
  · exact List.nil_prefix

theorem total_roomFor_add_le (hb : b ≤ cap) : total size (roomFor size cap b xs) + b ≤ cap := by
  have : total size (fitting size (cap - b) xs) ≤ cap - b := total_fitting_le
  rw [roomFor, if_pos hb]
  omega

theorem roomFor_of_fits (h : total size xs + b ≤ cap) : roomFor size cap b xs = xs := by
  rw [roomFor, if_pos (by omega)]
  exact fitting_of_total_le (by omega)

theorem roomFor_append_singleton (h : cap < total size (xs ++ [x]) + b) :
    roomFor size cap b (xs ++ [x]) = roomFor size cap b xs := by
  unfold roomFor
  split
  · exact fitting_append_singleton (by omega)
  · rfl

/-- Distinct keys that are all present account for their sizes. -/
theorem length_mul_le_total {ks : List κ} (hk : ks.Nodup)
    (h : ∀ k ∈ ks, ∃ v, (k, v) ∈ xs ∧ size v = b) : ks.length * b ≤ total size xs := by
  induction ks generalizing xs with
  | nil => simp
  | cons k ks ih =>
    obtain ⟨v, hv, hb⟩ := h k (by simp)
    obtain ⟨as, bs, rfl⟩ := List.append_of_mem hv
    have hrest : ∀ k' ∈ ks, ∃ w, (k', w) ∈ as ++ bs ∧ size w = b := by
      intro k' hk'
      obtain ⟨w, hw, hs⟩ := h k' (by simp [hk'])
      refine ⟨w, ?_, hs⟩
      have hne : k' ≠ k := by
        rintro rfl
        exact (List.nodup_cons.mp hk).1 hk'
      simpa [hne] using hw
    have := ih (List.nodup_cons.mp hk).2 hrest
    simp only [total_append, total_cons, List.length_cons] at this ⊢
    rw [Nat.add_mul]
    omega

/-- A block of equally sized recent items survives making room for one more exactly when they
fit together. -/
theorem roomFor_keeps_iff {q : List (κ × ι)} (hn : (keys xs).Nodup) (hq : q <+: xs)
    (hqb : ∀ x ∈ q, size x.2 = b) (hb : b ≤ cap) :
    (∀ x ∈ q, x.1 ∈ keys (roomFor size cap b xs)) ↔ (q.length + 1) * b ≤ cap := by
  have hmul : (q.length + 1) * b = q.length * b + b := by ring
  constructor
  · intro h
    have hks : ∀ k ∈ keys q, ∃ v, (k, v) ∈ roomFor size cap b xs ∧ size v = b := by
      intro k hk
      obtain ⟨w, hw⟩ := mem_keys.mp hk
      obtain ⟨v, hv⟩ := mem_keys.mp (h _ hw)
      have hvw := eq_of_mem_of_mem hn (roomFor_isPrefix.subset hv) (hq.subset hw)
      exact ⟨v, hv, hvw ▸ hqb _ hw⟩
    have hlen := length_mul_le_total (keys_nodup_of_isPrefix hq hn) hks
    have hroom : total size (roomFor size cap b xs) + b ≤ cap := total_roomFor_add_le hb
    simp only [keys, List.length_map] at hlen
    omega
  · intro h x hx
    have hkeep : q <+: roomFor size cap b xs := by
      rw [roomFor, if_pos hb]
      exact prefix_fitting hq (by rw [total_uniform hqb]; omega)
    exact mem_keys_of_mem (hkeep.subset hx)

section Touch

variable [DecidableEq κ]

/-- Bring the item with key `k` to the front. -/
def refresh (k : κ) (xs : List (κ × ι)) : List (κ × ι) :=
  xs.filter (fun x => x.1 = k) ++ xs.filter (fun x => x.1 ≠ k)

variable (size) in
/-- Use of `k`: a hit refreshes it, a miss makes room and inserts it unless it exceeds the cap. -/
def touch (cap : Nat) (k : κ) (v : ι) (xs : List (κ × ι)) : List (κ × ι) :=
  if k ∈ keys xs then refresh k xs
  else if size v ≤ cap then (k, v) :: roomFor size cap (size v) xs
  else roomFor size cap (size v) xs

variable (size) in
def touchAll (cap : Nat) : List (κ × ι) → List (κ × ι) → List (κ × ι)
  | [], xs => xs
  | i :: items, xs => touchAll cap items (touch size cap i.1 i.2 xs)

theorem refresh_perm : (refresh k xs).Perm xs := by
  have := List.filter_append_perm (fun x : κ × ι => decide (x.1 = k)) xs
  simpa [refresh] using this

theorem mem_refresh : x ∈ refresh k xs ↔ x ∈ xs := refresh_perm.mem_iff

theorem keys_refresh_perm : (keys (refresh k xs)).Perm (keys xs) := refresh_perm.map _

theorem filter_key_eq (hn : (keys xs).Nodup) (hv : (k, v) ∈ xs) :
    xs.filter (fun x => x.1 = k) = [(k, v)] := by
  obtain ⟨as, bs, rfl⟩ := List.append_of_mem hv
  have hd : ∀ y ∈ as ++ bs, y.1 ≠ k := by
    intro y hy he
    have hp : (as ++ (k, v) :: bs).Perm ((k, v) :: (as ++ bs)) := List.perm_middle
    have hn' : (keys ((k, v) :: (as ++ bs))).Nodup := (hp.map Prod.fst).nodup_iff.mp hn
    have : k ∈ keys (as ++ bs) := he ▸ mem_keys_of_mem hy
    exact (List.nodup_cons.mp hn').1 this
  have has : as.filter (fun x => x.1 = k) = [] :=
    List.filter_eq_nil_iff.mpr (fun y hy => by simpa using hd y (by simp [hy]))
  have hbs : bs.filter (fun x => x.1 = k) = [] :=
    List.filter_eq_nil_iff.mpr (fun y hy => by simpa using hd y (by simp [hy]))
  simp [has, hbs]

/-- With distinct keys a refresh is the item followed by all the others. -/
theorem refresh_eq (hn : (keys xs).Nodup) (hv : (k, v) ∈ xs) :
    refresh k xs = (k, v) :: xs.filter (fun x => x.1 ≠ k) := by
  rw [refresh, filter_key_eq hn hv]
  rfl

theorem touch_hit (h : k ∈ keys xs) : touch size cap k v xs = refresh k xs := if_pos h

theorem touch_miss (h : k ∉ keys xs) (hb : size v ≤ cap) :
    touch size cap k v xs = (k, v) :: roomFor size cap (size v) xs := by
  rw [touch, if_neg h, if_pos hb]

theorem touch_oversized (h : k ∉ keys xs) (hb : cap < size v) : touch size cap k v xs = [] := by
  rw [touch, if_neg h, if_neg (by omega), roomFor, if_neg (by omega)]

theorem mem_of_mem_touch (h : x ∈ touch size cap k v xs) : x ∈ xs ∨ x = (k, v) := by
  unfold touch at h
  split at h
  · exact Or.inl (mem_refresh.mp h)
  · split at h
    · rcases List.mem_cons.mp h with rfl | h
      · exact Or.inr rfl
      · exact Or.inl (roomFor_isPrefix.subset h)
    · exact Or.inl (roomFor_isPrefix.subset h)

theorem keys_touch_nodup (hn : (keys xs).Nodup) : (keys (touch size cap k v xs)).Nodup := by
  unfold touch
  split
  · exact keys_refresh_perm.nodup_iff.mpr hn
  · rename_i hk
    have hr : (keys (roomFor size cap (size v) xs)).Nodup :=
      keys_nodup_of_isPrefix roomFor_isPrefix hn
    split
    · refine List.nodup_cons.mpr ⟨fun hm => hk ?_, hr⟩
      exact keys_subset roomFor_isPrefix.subset hm
    · exact hr

theorem total_touch_le (h : k ∉ keys xs ∨ total size xs ≤ cap) :
    total size (touch size cap k v xs) ≤ cap := by
  by_cases hk : k ∈ keys xs
  · rw [touch_hit hk, total_perm refresh_perm]
    exact h.resolve_left (fun hn => hn hk)
  · by_cases hb : size v ≤ cap
    · have : total size (roomFor size cap (size v) xs) + size v ≤ cap := total_roomFor_add_le hb
      rw [touch_miss hk hb, total_cons]
      simp only
      omega
    · rw [touch_oversized hk (by omega)]
      simp

/-- A refreshed item lands in front of any recent block it is not part of. -/
theorem prefix_refresh {q : List (κ × ι)} (hn : (keys xs).Nodup) (hq : q <+: xs)
    (hk : k ∉ keys q) (hv : (k, v) ∈ xs) : (k, v) :: q <+: refresh k xs := by
  rw [refresh_eq hn hv, List.prefix_cons_inj]
  obtain ⟨zs, rfl⟩ := hq
  have hself : q.filter (fun x => x.1 ≠ k) = q := by
    rw [List.filter_eq_self]
    intro x hx
    simp only [ne_eq, decide_eq_true_eq]
    rintro rfl
    exact hk (mem_keys_of_mem hx)
  rw [List.filter_append, hself]
  exact List.prefix_append _ _

/-- A recent block that fits together with the next item stays in front of everything else. -/
theorem prefix_touch {q : List (κ × ι)} (hn : (keys xs).Nodup) (hq : q <+: xs)
    (hk : k ∉ keys q) (hv : size v = b) (hqb : ∀ x ∈ q, size x.2 = b)
    (hkb : ∀ w, (k, w) ∈ xs → size w = b) (hcap : (q.length + 1) * b ≤ cap) :
    ∃ w, size w = b ∧ (k, w) :: q <+: touch size cap k v xs := by
  have hfit : total size q + b ≤ cap := by
    rw [total_uniform hqb]
    linarith [hcap, Nat.add_mul q.length 1 b]
  by_cases hm : k ∈ keys xs
  · obtain ⟨w, hw⟩ := mem_keys.mp hm
    refine ⟨w, hkb w hw, ?_⟩
    rw [touch_hit hm]
    exact prefix_refresh hn hq hk hw
  · refine ⟨v, hv, ?_⟩
    rw [touch_miss hm (by omega), List.prefix_cons_inj, roomFor, if_pos (by omega)]
    exact prefix_fitting hq (by omega)

theorem mem_of_mem_touchAll {items : List (κ × ι)} (h : x ∈ touchAll size cap items xs) :
    x ∈ xs ∨ x ∈ items := by
  induction items generalizing xs with
  | nil => exact Or.inl h
  | cons i items ih =>
    rcases ih h with h | h
    · rcases mem_of_mem_touch h with h | rfl
      · exact Or.inl h
      · exact Or.inr (by simp)
    · exact Or.inr (by simp [h])

/-- Once a total is within the cap it stays there, and any miss brings it there. -/
theorem total_touchAll_le {items : List (κ × ι)}
    (h : (∃ i ∈ items, i.1 ∉ keys xs) ∨ total size xs ≤ cap) :
    total size (touchAll size cap items xs) ≤ cap := by
  induction items generalizing xs with
  | nil => simpa [touchAll] using h
  | cons i items ih =>
    apply ih
    by_cases hi : i.1 ∈ keys xs
    · rcases h with ⟨j, hj, hm⟩ | h
      · left
        refine ⟨j, ?_, ?_⟩
        · rcases List.mem_cons.mp hj with rfl | hj
          · exact (hm hi).elim
          · exact hj
        · rw [touch_hit hi]
          exact fun hk => hm (keys_refresh_perm.mem_iff.mp hk)
      · exact Or.inr (total_touch_le (Or.inr h))
    · exact Or.inr (total_touch_le (Or.inl hi))

/-- Touching only what is present drops nothing. -/
theorem touchAll_of_present {items : List (κ × ι)} (h : ∀ i ∈ items, i.1 ∈ keys xs) :
    (keys (touchAll size cap items xs)).Perm (keys xs) := by
  induction items generalizing xs with
  | nil => exact .refl _
  | cons i items ih =>
    have hp : (keys (touch size cap i.1 i.2 xs)).Perm (keys xs) := by
      rw [touch_hit (h i (by simp))]
      exact keys_refresh_perm
    exact (ih fun j hj => hp.mem_iff.mpr (h j (by simp [hj]))).trans hp

/-- A batch that fits under the cap ends as the recent block, last touched first. -/
theorem prefix_touchAll {items q : List (κ × ι)} (hn : (keys xs).Nodup) (hq : q <+: xs)
    (hqb : ∀ x ∈ q, size x.2 = b) (hkb : ∀ i ∈ items, ∀ w, (i.1, w) ∈ xs → size w = b)
    (hib : ∀ i ∈ items, size i.2 = b) (hnd : (keys (items.reverse ++ q)).Nodup)
    (hcap : (q.length + items.length) * b ≤ cap) :
    ∃ r, keys r = (keys items).reverse ∧ r ++ q <+: touchAll size cap items xs := by
  induction items generalizing xs q with
  | nil => exact ⟨[], rfl, hq⟩
  | cons i items ih =>
    have hnd' : i.1 ∉ keys q ∧ (keys (items.reverse ++ i :: q)).Nodup := by
      have hp : (items.reverse ++ i :: q) = ((i :: items).reverse ++ q) := by simp
      rw [hp]
      refine ⟨?_, hnd⟩
      rw [List.reverse_cons, List.append_assoc, keys_append] at hnd
      exact (List.nodup_cons.mp (List.nodup_append.mp hnd).2.1).1
    obtain ⟨hiq, hnd'⟩ := hnd'
    obtain ⟨w, hw, hpre⟩ := prefix_touch hn hq hiq (hib i (by simp)) hqb
      (hkb i (by simp)) (le_trans (Nat.mul_le_mul_right b (by simp)) hcap)
    obtain ⟨r, hr, hrp⟩ := ih (keys_touch_nodup hn) hpre
      (by
        intro x hx
        rcases List.mem_cons.mp hx with rfl | hx
        · exact hw
        · exact hqb x hx)
      (by
        intro j hj u hu
        rcases mem_of_mem_touch hu with hu | hu
        · exact hkb j (by simp [hj]) u hu
        · have hu : u = i.2 := congrArg Prod.snd hu
          rw [hu]
          exact hib i (by simp))
      (fun j hj => hib j (by simp [hj])) (by simpa [keys] using hnd')
      (by simpa [Nat.add_assoc, Nat.add_comm 1] using hcap)
    exact ⟨r ++ [(i.1, w)], by simp [hr], by simpa [touchAll] using hrp⟩

/-- A batch of equally sized distinct items is wholly present afterwards exactly when it fits
under the cap or was wholly present before. -/
theorem touchAll_keeps_iff {items : List (κ × ι)} (hn : (keys xs).Nodup)
    (hnd : (keys items).Nodup) (hib : ∀ i ∈ items, size i.2 = b)
    (hkb : ∀ i ∈ items, ∀ w, (i.1, w) ∈ xs → size w = b) :
    (∀ i ∈ items, i.1 ∈ keys (touchAll size cap items xs)) ↔
      items.length * b ≤ cap ∨ ∀ i ∈ items, i.1 ∈ keys xs := by
  constructor
  · intro h
    by_cases hm : ∃ i ∈ items, i.1 ∉ keys xs
    · left
      have ht : total size (touchAll size cap items xs) ≤ cap := total_touchAll_le (Or.inl hm)
      refine le_trans ?_ ht
      have hks : ∀ k ∈ keys items, ∃ v, (k, v) ∈ touchAll size cap items xs ∧ size v = b := by
        intro k hk
        obtain ⟨w, hw⟩ := mem_keys.mp hk
        obtain ⟨v, hv⟩ := mem_keys.mp (h _ hw)
        refine ⟨v, hv, ?_⟩
        rcases mem_of_mem_touchAll hv with hv | hv
        · exact hkb _ hw v hv
        · exact hib _ hv
      simpa [keys] using length_mul_le_total hnd hks
    · right
      push Not at hm
      exact hm
  · rintro (hcap | hall)
    · intro i hi
      obtain ⟨r, hr, hpre⟩ := prefix_touchAll hn List.nil_prefix (by simp) hkb hib
        (by
          rw [List.append_nil]
          exact ((List.reverse_perm items).map Prod.fst).nodup_iff.mpr hnd)
        (by simpa using hcap)
      apply keys_subset hpre.subset
      rw [List.append_nil, hr, List.mem_reverse]
      exact mem_keys_of_mem hi
    · intro i hi
      exact (touchAll_of_present hall).mem_iff.mpr (hall i hi)

variable (size) in
/-- First pass of a deferred batch: hits are refreshed, each miss makes room and is set aside. -/
def makeWay (cap : Nat) : List (κ × ι) → List (κ × ι) → List (κ × ι) × List (κ × ι)
  | [], xs => (xs, [])
  | i :: items, xs =>
    if i.1 ∈ keys xs then makeWay cap items (refresh i.1 xs)
    else
      let (ys, ms) := makeWay cap items (roomFor size cap (size i.2) xs)
      (ys, i :: ms)

theorem makeWay_hit {i : κ × ι} {items : List (κ × ι)} (h : i.1 ∈ keys xs) :
    makeWay size cap (i :: items) xs = makeWay size cap items (refresh i.1 xs) := by
  rw [makeWay, if_pos h]

theorem makeWay_miss {i : κ × ι} {items : List (κ × ι)} (h : i.1 ∉ keys xs) :
    makeWay size cap (i :: items) xs =
      ((makeWay size cap items (roomFor size cap (size i.2) xs)).1,
        i :: (makeWay size cap items (roomFor size cap (size i.2) xs)).2) := by
  rw [makeWay, if_neg h]

/-- The pass only drops items. -/
theorem total_makeWay_le {items : List (κ × ι)} :
    total size (makeWay size cap items xs).1 ≤ total size xs := by
  induction items generalizing xs with
  | nil => exact le_rfl
  | cons i items ih =>
    by_cases hi : i.1 ∈ keys xs
    · rw [makeWay_hit hi]
      exact ih.trans (total_perm refresh_perm).le
    · rw [makeWay_miss hi]
      exact ih.trans (total_le_of_isPrefix roomFor_isPrefix)

theorem makeWay_subset {items : List (κ × ι)} : (makeWay size cap items xs).1 ⊆ xs := by
  induction items generalizing xs with
  | nil => exact List.Subset.refl xs
  | cons i items ih =>
    by_cases hi : i.1 ∈ keys xs
    · rw [makeWay_hit hi]
      exact List.Subset.trans ih refresh_perm.subset
    · rw [makeWay_miss hi]
      exact List.Subset.trans ih roomFor_isPrefix.subset

theorem makeWay_misses_subset {items : List (κ × ι)} :
    (makeWay size cap items xs).2 ⊆ items := by
  induction items generalizing xs with
  | nil => exact List.Subset.refl []
  | cons i items ih =>
    by_cases hi : i.1 ∈ keys xs
    · rw [makeWay_hit hi]
      exact List.subset_cons_of_subset i ih
    · rw [makeWay_miss hi]
      exact List.cons_subset_cons i ih

theorem mem_makeWay_misses {items : List (κ × ι)} {i : κ × ι} (hi : i ∈ items)
    (hout : i.1 ∉ keys xs) : i ∈ (makeWay size cap items xs).2 := by
  induction items generalizing xs with
  | nil => cases hi
  | cons j items ih =>
    by_cases hj : j.1 ∈ keys xs
    · rw [makeWay_hit hj]
      rcases List.mem_cons.mp hi with rfl | hi
      · exact (hout hj).elim
      · exact ih hi fun hk => hout (keys_refresh_perm.mem_iff.mp hk)
    · rw [makeWay_miss hj]
      rcases List.mem_cons.mp hi with rfl | hi
      · exact List.mem_cons_self
      · exact List.mem_cons_of_mem _ (ih hi fun hk => hout (keys_subset roomFor_isPrefix.subset hk))

/-- What the pass sets aside is absent from what it leaves. -/
theorem makeWay_misses_absent (items : List (κ × ι)) (xs : List (κ × ι)) :
    ∀ i ∈ (makeWay size cap items xs).2, i.1 ∉ keys (makeWay size cap items xs).1 := by
  induction items generalizing xs with
  | nil => simp [makeWay]
  | cons i items ih =>
    by_cases hi : i.1 ∈ keys xs
    · rw [makeWay_hit hi]
      exact ih _
    · rw [makeWay_miss hi]
      intro j hj
      rcases List.mem_cons.mp hj with rfl | hj
      · intro hk
        exact hi (keys_subset (List.Subset.trans makeWay_subset roomFor_isPrefix.subset) hk)
      · exact ih _ j hj

/-- Refresh every listed key in turn. -/
def refreshAll (items : List (κ × ι)) (xs : List (κ × ι)) : List (κ × ι) :=
  items.foldl (fun xs i => refresh i.1 xs) xs

theorem refreshAll_perm {items : List (κ × ι)} : (refreshAll items xs).Perm xs := by
  induction items generalizing xs with
  | nil => exact .refl xs
  | cons i items ih => exact ih.trans refresh_perm

theorem keys_refreshAll_perm {items : List (κ × ι)} :
    (keys (refreshAll items xs)).Perm (keys xs) := refreshAll_perm.map Prod.fst

/-- Refreshed items end as the recent block, last refreshed first. -/
theorem prefix_refreshAll {items q : List (κ × ι)} (hn : (keys xs).Nodup) (hq : q <+: xs)
    (hin : ∀ i ∈ items, i.1 ∈ keys xs) (hnd : (keys items).Nodup)
    (hdq : ∀ i ∈ items, i.1 ∉ keys q) :
    ∃ r, keys r = (keys items).reverse ∧ r ++ q <+: refreshAll items xs := by
  induction items generalizing xs q with
  | nil => exact ⟨[], rfl, hq⟩
  | cons i items ih =>
    obtain ⟨w, hw⟩ := mem_keys.mp (hin i (by simp))
    have hnd' := List.nodup_cons.mp hnd
    obtain ⟨r, hr, hpre⟩ := ih (keys_refresh_perm.nodup_iff.mpr hn)
      (prefix_refresh hn hq (hdq i (by simp)) hw)
      (fun j hj => keys_refresh_perm.mem_iff.mpr (hin j (by simp [hj]))) hnd'.2
      (by
        intro j hj
        rw [keys_cons, List.mem_cons, not_or]
        exact ⟨fun he => hnd'.1 (he ▸ mem_keys_of_mem hj), hdq j (by simp [hj])⟩)
    refine ⟨r ++ [(i.1, w)], by simp [hr], ?_⟩
    rw [List.append_assoc]
    exact hpre

/-- The leading items that are present. -/
def leading (items xs : List (κ × ι)) : List (κ × ι) := items.takeWhile fun i => i.1 ∈ keys xs

/-- The items from the first one that is missing on. -/
def trailing (items xs : List (κ × ι)) : List (κ × ι) := items.dropWhile fun i => i.1 ∈ keys xs

theorem leading_append_trailing (items xs : List (κ × ι)) :
    leading items xs ++ trailing items xs = items := List.takeWhile_append_dropWhile

theorem mem_keys_of_leading {items : List (κ × ι)} {i : κ × ι} (h : i ∈ leading items xs) :
    i.1 ∈ keys xs := by simpa using List.mem_takeWhile_imp h

theorem trailing_head {items rest : List (κ × ι)} {i : κ × ι}
    (h : trailing items xs = i :: rest) : i.1 ∉ keys xs := by
  have hdrop : items.dropWhile (fun i => decide (i.1 ∈ keys xs)) = i :: rest := h
  have hne : items.dropWhile (fun i => decide (i.1 ∈ keys xs)) ≠ [] := by simp [hdrop]
  have hhead := List.head_dropWhile_not (fun i : κ × ι => decide (i.1 ∈ keys xs)) hne
  simp only [hdrop, List.head_cons] at hhead
  simpa using hhead

theorem trailing_eq_nil_iff {items : List (κ × ι)} :
    trailing items xs = [] ↔ ∀ i ∈ items, i.1 ∈ keys xs := by
  simp only [trailing, List.dropWhile_eq_nil_iff, decide_eq_true_eq]

theorem makeWay_split (items xs : List (κ × ι)) :
    makeWay size cap items xs =
      makeWay size cap (trailing items xs) (refreshAll (leading items xs) xs) := by
  induction items generalizing xs with
  | nil => rfl
  | cons i items ih =>
    by_cases hi : i.1 ∈ keys xs
    · have hmem : ∀ j : κ × ι, j.1 ∈ keys (refresh i.1 xs) ↔ j.1 ∈ keys xs :=
        fun j => keys_refresh_perm.mem_iff
      rw [makeWay_hit hi, ih]
      simp only [trailing, leading, hmem, List.dropWhile_cons, List.takeWhile_cons, hi,
        decide_true, if_true]
      rfl
    · simp [trailing, leading, hi, refreshAll]

/-- Once there is room for one more item, the pass only reorders. -/
theorem makeWay_of_fits {items : List (κ × ι)} (hib : ∀ i ∈ items, size i.2 = b)
    (hfit : total size xs + b ≤ cap) :
    (makeWay size cap items xs).1.Perm xs ∧
      (makeWay size cap items xs).2 = items.filter fun i => i.1 ∉ keys xs := by
  induction items generalizing xs with
  | nil => exact ⟨.refl xs, rfl⟩
  | cons i items ih =>
    have hrest := fun j hj => hib j (List.mem_cons_of_mem i hj)
    by_cases hi : i.1 ∈ keys xs
    · have hfit' : total size (refresh i.1 xs) + b ≤ cap := by rwa [total_perm refresh_perm]
      obtain ⟨hp, hs⟩ := ih hrest hfit'
      rw [makeWay_hit hi]
      refine ⟨hp.trans refresh_perm, ?_⟩
      rw [hs]
      simp [hi, keys_refresh_perm.mem_iff]
    · have hroom : roomFor size cap (size i.2) xs = xs :=
        roomFor_of_fits (by rwa [hib i (by simp)])
      obtain ⟨hp, hs⟩ := ih hrest hfit
      rw [makeWay_miss hi, hroom]
      refine ⟨hp, ?_⟩
      simp [hs, hi]

/-- The pass in closed form when something is missing: the leading hits are refreshed, room is
made once, and what is then missing is set aside. -/
theorem makeWay_closed {items : List (κ × ι)} (hb : b ≤ cap) (hib : ∀ i ∈ items, size i.2 = b)
    (ht : trailing items xs ≠ []) :
    (makeWay size cap items xs).1.Perm
        (roomFor size cap b (refreshAll (leading items xs) xs)) ∧
      (makeWay size cap items xs).2 = (trailing items xs).filter fun i =>
        i.1 ∉ keys (roomFor size cap b (refreshAll (leading items xs) xs)) := by
  rw [makeWay_split]
  cases hc : trailing items xs with
  | nil => exact (ht hc).elim
  | cons i rest =>
    have hmem : ∀ j ∈ i :: rest, j ∈ items := by
      intro j hj
      rw [← leading_append_trailing items xs, hc]
      exact List.mem_append_right _ hj
    have hi : i.1 ∉ keys (refreshAll (leading items xs) xs) := by
      have := trailing_head hc
      rwa [keys_refreshAll_perm.mem_iff]
    have hout : i.1 ∉ keys (roomFor size cap b (refreshAll (leading items xs) xs)) :=
      fun h => hi (keys_subset roomFor_isPrefix.subset h)
    have hrest := fun j hj => hib j (hmem j (List.mem_cons_of_mem i hj))
    have hfit : total size (roomFor size cap b (refreshAll (leading items xs) xs)) + b ≤ cap :=
      total_roomFor_add_le hb
    obtain ⟨hp, hs⟩ := makeWay_of_fits hrest hfit
    rw [makeWay_miss hi, hib i (hmem i (by simp))]
    refine ⟨hp, ?_⟩
    simp [hs, hout]

variable (size) in
/-- What stays and what is missing once a deferred batch has refreshed its leading hits and made
room for one item of size `b`. -/
def staying (cap b : Nat) (items xs : List (κ × ι)) : List (κ × ι) :=
  roomFor size cap b (refreshAll (leading items xs) xs)

variable (size) in
def missing (cap b : Nat) (items xs : List (κ × ι)) : List (κ × ι) :=
  (trailing items xs).filter fun i => i.1 ∉ keys (staying size cap b items xs)

theorem total_makeWay_of_present (size : ι → Nat) (cap : Nat) {items : List (κ × ι)}
    (h : trailing items xs = []) :
    total size (makeWay size cap items xs).1 = total size xs ∧
      (makeWay size cap items xs).2 = [] := by
  rw [makeWay_split, h]
  exact ⟨total_perm refreshAll_perm, rfl⟩

/-- When a list within the cap is still within it after a deferred batch has inserted what it set
aside. -/
theorem total_deferred_le_iff {items : List (κ × ι)} (hib : ∀ i ∈ items, size i.2 = b)
    (hcap : total size xs ≤ cap) :
    total size (((makeWay size cap items xs).2.filter fun x => size x.2 ≤ cap).reverse ++
        (makeWay size cap items xs).1) ≤ cap ↔
      trailing items xs = [] ∨ cap < b ∨
        total size (staying size cap b items xs) + (missing size cap b items xs).length * b
          ≤ cap := by
  by_cases ht : trailing items xs = []
  · obtain ⟨htot, hnil⟩ := total_makeWay_of_present size cap ht
    simp [ht, hnil, htot, hcap]
  · have hms : ∀ x ∈ missing size cap b items xs, size x.2 = b := by
      intro x hx
      apply hib
      rw [← leading_append_trailing items xs]
      exact List.mem_append_right _ (List.mem_of_mem_filter hx)
    by_cases hb : b ≤ cap
    · obtain ⟨hp, hs⟩ := makeWay_closed hb hib ht
      have hs' : (makeWay size cap items xs).2 = missing size cap b items xs := hs
      have hself : (missing size cap b items xs).filter (fun x => size x.2 ≤ cap) =
          missing size cap b items xs := by
        rw [List.filter_eq_self]
        intro x hx
        simpa [hms x hx] using hb
      have hst : total size (makeWay size cap items xs).1 =
          total size (staying size cap b items xs) := total_perm hp
      have hmiss : total size (missing size cap b items xs).reverse =
          (missing size cap b items xs).length * b := by
        rw [total_perm (List.reverse_perm _), total_uniform hms]
      rw [hs', hself, total_append, hst, hmiss]
      simp only [ht, false_or, Nat.not_lt.mpr hb]
      omega
    · have hsub : ∀ x ∈ (makeWay size cap items xs).2, size x.2 = b :=
        fun x hx => hib x (makeWay_misses_subset hx)
      have hnone : (makeWay size cap items xs).2.filter (fun x => size x.2 ≤ cap) = [] := by
        rw [List.filter_eq_nil_iff]
        intro x hx
        simpa [hsub x hx] using hb
      have hle : total size (makeWay size cap items xs).1 ≤ total size xs := total_makeWay_le
      rw [hnone]
      have hlt : cap < b := by omega
      simp only [List.reverse_nil, List.nil_append, hlt, true_or, or_true, iff_true]
      omega

/-- Making room for the misses spares the leading hits exactly if one miss fits beside them. -/
theorem roomFor_keeps_leading_iff {items : List (κ × ι)} (hn : (keys xs).Nodup) (hb : b ≤ cap)
    (hkb : ∀ i ∈ items, ∀ w, (i.1, w) ∈ xs → size w = b) (hnd : (keys (leading items xs)).Nodup) :
    (∀ k ∈ keys (leading items xs),
      k ∈ keys (roomFor size cap b (refreshAll (leading items xs) xs))) ↔
    ((leading items xs).length + 1) * b ≤ cap := by
  obtain ⟨q, hq, hpre⟩ := prefix_refreshAll hn (List.nil_prefix : [] <+: xs)
    (fun i hi => mem_keys_of_leading hi) hnd (by simp)
  rw [List.append_nil] at hpre
  have hmem : ∀ k, k ∈ keys q ↔ k ∈ keys (leading items xs) := by
    intro k
    rw [hq, List.mem_reverse]
  have hqb : ∀ x ∈ q, size x.2 = b := by
    intro x hx
    obtain ⟨v, hv⟩ := mem_keys.mp ((hmem _).mp (mem_keys_of_mem hx))
    have hin : (x.1, v) ∈ items :=
      leading_append_trailing items xs ▸ List.mem_append_left _ hv
    exact hkb _ hin x.2 (refreshAll_perm.subset (hpre.subset hx))
  have hlen : q.length = (leading items xs).length := by
    have := congrArg List.length hq
    simpa [keys] using this
  rw [← hlen, ← roomFor_keeps_iff (keys_refreshAll_perm.nodup_iff.mpr hn) hpre hqb hb]
  constructor
  · intro h x hx
    exact h _ ((hmem _).mp (mem_keys_of_mem hx))
  · intro h k hk
    obtain ⟨v, hv⟩ := mem_keys.mp ((hmem k).mpr hk)
    exact h (k, v) hv

/-- A deferred batch serves every item exactly when its leading hits and one miss fit together,
or nothing misses. -/
theorem makeWay_serves_iff {items : List (κ × ι)} (hn : (keys xs).Nodup) (hb : b ≤ cap)
    (hkb : ∀ i ∈ items, ∀ w, (i.1, w) ∈ xs → size w = b) (hib : ∀ i ∈ items, size i.2 = b)
    (hnd : (keys items).Nodup) :
    (∀ i ∈ items,
      i.1 ∈ keys (makeWay size cap items xs).1 ∨ i ∈ (makeWay size cap items xs).2) ↔
    (∀ i ∈ items, i.1 ∈ keys xs) ∨ ((leading items xs).length + 1) * b ≤ cap := by
  by_cases ht : trailing items xs = []
  · have hall := trailing_eq_nil_iff.mp ht
    have hkeep : ∀ i ∈ items, i.1 ∈ keys (refreshAll (leading items xs) xs) :=
      fun i hi => keys_refreshAll_perm.mem_iff.mpr (hall i hi)
    rw [makeWay_split, ht]
    exact ⟨fun _ => Or.inl hall, fun _ i hi => Or.inl (hkeep i hi)⟩
  · obtain ⟨hp, hs⟩ := makeWay_closed hb hib ht
    have hnall : ¬ ∀ i ∈ items, i.1 ∈ keys xs := fun h => ht (trailing_eq_nil_iff.mpr h)
    have hsplit := leading_append_trailing items xs
    have hin : ∀ i ∈ leading items xs, i ∈ items :=
      fun i hi => hsplit ▸ List.mem_append_left _ hi
    rw [← hsplit, keys_append, List.nodup_append] at hnd
    simp only [hnall, false_or]
    rw [← roomFor_keeps_leading_iff hn hb hkb hnd.1]
    have hkeys : ∀ k, k ∈ keys (makeWay size cap items xs).1 ↔
        k ∈ keys (roomFor size cap b (refreshAll (leading items xs) xs)) :=
      fun k => (hp.map Prod.fst).mem_iff
    constructor
    · intro h k hk
      obtain ⟨v, hv⟩ := mem_keys.mp hk
      rcases h _ (hin _ hv) with h | h
      · exact (hkeys _).mp h
      · rw [hs] at h
        have hlate := mem_keys_of_mem (List.mem_of_mem_filter h)
        exact (hnd.2.2 _ hk _ hlate rfl).elim
    · intro h i hi
      rw [← hsplit, List.mem_append] at hi
      rcases hi with hi | hi
      · exact Or.inl ((hkeys _).mpr (h _ (mem_keys_of_mem hi)))
      · by_cases hk : i.1 ∈ keys (roomFor size cap b (refreshAll (leading items xs) xs))
        · exact Or.inl ((hkeys _).mpr hk)
        · right
          rw [hs]
          exact List.mem_filter.mpr ⟨hi, by simpa using hk⟩

end Touch

end Recency
