import Mathlib.Tactic

/-!
# Writing to buffers and files

A buffer has a fixed length, and what is copied to it lies in it. A file grows with what is written
to it; a gap before that is filled.
-/

namespace Buffer

variable {α : Type}

def overwrite (pos : Nat) (xs buf : List α) : Option (List α) :=
  if pos + xs.length ≤ buf.length then
    some (buf.take pos ++ xs ++ buf.drop (pos + xs.length))
  else none

def insert (pos : Nat) (xs buf : List α) : List α := buf.take pos ++ xs ++ buf.drop pos

/-- Nothing written fills no gap. -/
def write (gap : α) (pos : Nat) (xs file : List α) : List α :=
  if xs.isEmpty then file
  else (file ++ List.replicate (pos - file.length) gap).take pos ++ xs ++
    file.drop (pos + xs.length)

variable {pos : Nat} {xs ys zs file : List α} {gap : α}

theorem overwrite_append (xs ys zs : List α) :
    overwrite xs.length ys (xs ++ zs) =
      if ys.length ≤ zs.length then some (xs ++ ys ++ zs.drop ys.length) else none := by
  rw [overwrite, List.length_append, List.take_left, ← List.drop_drop, List.drop_left]
  simp only [Nat.add_le_add_iff_left]

/-- What was there is replaced. -/
theorem overwrite_of_length_eq (xs ys zs tail : List α) (h : zs.length = ys.length) :
    overwrite xs.length ys (xs ++ (zs ++ tail)) = some (xs ++ (ys ++ tail)) := by
  have hle : ys.length ≤ (zs ++ tail).length := by
    rw [List.length_append, h]
    exact Nat.le_add_right _ _
  rw [overwrite_append, if_pos hle, ← h, List.drop_left, List.append_assoc]

/-- What reaches past the replaced part may be there already. -/
theorem overwrite_of_prefix (xs : List α) {tail : List α} (h : ys.drop zs.length <+: tail) :
    overwrite xs.length ys (xs ++ (zs ++ tail)) =
      some (xs ++ (ys.take zs.length ++ zs.drop ys.length ++ tail)) := by
  obtain ⟨rest, rfl⟩ := h
  have hle : ys.length ≤ (zs ++ (ys.drop zs.length ++ rest)).length := by
    simp only [List.length_append, List.length_drop]
    omega
  rw [overwrite_append, if_pos hle, List.drop_append]
  rcases Nat.le_total zs.length ys.length with hzs | hzs
  · have hlen : (ys.drop zs.length).length = ys.length - zs.length := List.length_drop
    rw [List.drop_of_length_le hzs, ← hlen, List.drop_left, List.nil_append, List.append_nil,
      ← List.append_assoc (ys.take zs.length), List.take_append_drop, List.append_assoc]
  · rw [Nat.sub_eq_zero_of_le hzs, List.drop_zero, List.drop_of_length_le hzs,
      List.take_of_length_le hzs]
    simp only [List.append_assoc]

theorem length_overwrite {buf buf' : List α} (h : overwrite pos xs buf = some buf') :
    buf'.length = buf.length := by
  unfold overwrite at h
  split at h
  · cases h
    simp only [List.length_append, List.length_take, List.length_drop]
    omega
  · cases h

/-- What lies before the copy is left alone. -/
theorem take_overwrite {n : Nat} {buf buf' : List α} (h : overwrite pos xs buf = some buf')
    (hn : n ≤ pos) : buf'.take n = buf.take n := by
  unfold overwrite at h
  split at h
  · rename_i hle
    cases h
    have hlen : n ≤ (buf.take pos).length := by
      rw [List.length_take]
      omega
    rw [List.append_assoc, List.take_append_of_le_length hlen, List.take_take, Nat.min_eq_left hn]
  · cases h

theorem overwrite_append_ok {buf : List α} (h : overwrite xs.length ys (xs ++ zs) = some buf) :
    ys.length ≤ zs.length ∧ buf.take (xs.length + ys.length) = xs ++ ys := by
  rw [overwrite_append] at h
  split at h
  · rename_i hle
    cases h
    exact ⟨hle, List.take_left' List.length_append⟩
  · cases h

theorem insert_append (xs ys zs : List α) : insert xs.length ys (xs ++ zs) = xs ++ (ys ++ zs) := by
  rw [insert, List.take_left, List.drop_left, List.append_assoc]

theorem length_insert (pos : Nat) (xs buf : List α) :
    (insert pos xs buf).length = buf.length + xs.length := by
  simp only [insert, List.length_append, List.length_take, List.length_drop]
  omega

theorem write_nil (gap : α) (pos : Nat) (file : List α) : write gap pos [] file = file := rfl

/-- A write behind the end of the file. -/
theorem write_of_le (h : file.length ≤ pos) (hne : xs ≠ []) :
    write gap pos xs file = file ++ (List.replicate (pos - file.length) gap ++ xs) := by
  have hlen : (file ++ List.replicate (pos - file.length) gap).length = pos := by
    rw [List.length_append, List.length_replicate]
    omega
  have hempty : ¬xs.isEmpty = true := by simpa using hne
  rw [write, if_neg hempty, List.take_of_length_le hlen.le, List.drop_of_length_le (by omega),
    List.append_nil, List.append_assoc]

theorem prefix_write (h : file.length ≤ pos) : file <+: write gap pos xs file := by
  by_cases hne : xs = []
  · rw [hne, write_nil]
  · rw [write_of_le h hne]
    exact List.prefix_append _ _

theorem length_write (gap : α) (h : file.length ≤ pos) (hne : xs ≠ []) :
    (write gap pos xs file).length = pos + xs.length := by
  rw [write_of_le h hne, List.length_append, List.length_append, List.length_replicate]
  omega

theorem length_write_le (gap : α) (xs : List α) (h : file.length ≤ pos) :
    (write gap pos xs file).length ≤ pos + xs.length := by
  by_cases hne : xs = []
  · rw [hne, write_nil]
    exact h
  · exact (length_write gap h hne).le

/-- The written bytes are read back. -/
theorem prefix_drop_write (gap : α) (xs : List α) (h : file.length ≤ pos) :
    xs <+: (write gap pos xs file).drop pos := by
  by_cases hne : xs = []
  · rw [hne]
    exact List.nil_prefix
  · have hlen : (file ++ List.replicate (pos - file.length) gap).length = pos := by
      rw [List.length_append, List.length_replicate]
      omega
    rw [write_of_le h hne, ← List.append_assoc, List.drop_left' hlen]

/-- Two writes, one after the other. -/
theorem write_write (gap : α) (ys : List α) (h : file.length ≤ pos) (hne : xs ≠ []) :
    write gap (pos + xs.length) ys (write gap pos xs file) = write gap pos (xs ++ ys) file := by
  by_cases hys : ys = []
  · rw [hys, write_nil, List.append_nil]
  · have hlen := length_write gap h hne
    rw [write_of_le hlen.le hys, hlen, Nat.sub_self, write_of_le h hne,
      write_of_le h (by simp [hne])]
    simp

/-- Writing what another file has there, behind what it begins with and a gap, makes more of it. -/
theorem write_take {q n : Nat} (hq : q ≤ pos) (hfit : pos + n ≤ file.length) (hn : 0 < n)
    (hgap : file.take pos = file.take q ++ List.replicate (pos - q) gap) :
    write gap pos ((file.drop pos).take n) (file.take q) = file.take (pos + n) := by
  have hlen : (file.take q).length = q := by
    rw [List.length_take]
    omega
  have hne : (file.drop pos).take n ≠ [] := by
    intro hnil
    have hzero := congrArg List.length hnil
    rw [List.length_take, List.length_drop, List.length_nil] at hzero
    omega
  rw [write_of_le (hlen.trans_le hq) hne, hlen, ← List.append_assoc, ← hgap, ← List.take_add]

/-- Bytes that are there already. -/
theorem overwrite_self (h : xs <+: file.drop pos) (hpos : pos + xs.length ≤ file.length) :
    overwrite pos xs file = some file := by
  obtain ⟨tail, htail⟩ := h
  have hdrop : file.drop (pos + xs.length) = tail := by
    rw [← List.drop_drop, ← htail, List.drop_left]
  rw [overwrite, if_pos hpos, hdrop, List.append_assoc, htail, List.take_append_drop]

/-- Bytes at a position stay there when a file grows. -/
theorem prefix_drop_of_prefix {file' : List α} (h : xs <+: file.drop pos) (hgrow : file <+: file') :
    xs <+: file'.drop pos := by
  obtain ⟨tail, rfl⟩ := hgrow
  rw [List.drop_append]
  exact h.trans (List.prefix_append _ _)

end Buffer
