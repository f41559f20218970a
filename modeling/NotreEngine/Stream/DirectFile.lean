import NotreEngine.Retry
import NotreEngine.FileReader
import NotreEngine.PagedMemory

/-!
# The read loop of a direct file

`DirectFile::read_aligned` with the interrupted calls and short counts that `pread` may answer with.
What has been read so far is a prefix of the range asked for, so a verdict of true means all of it.
-/
namespace NotreEngine.Stream

open FileReader

/-- What one `pread` returns: -1 with `EINTR`, -1 with another error, or a count. -/
inductive Pread where
  | interrupted
  | failed
  | count (n : UInt64)
  deriving DecidableEq

/-- The answers to a request for `count` bytes at `pos`, taken as an `off_t`. -/
def Pread.Allowed (content : List UInt8) (count pos : UInt64) : Pread → Prop
  | .interrupted => True
  | .failed => True
  | .count n => pos.toNat < maxOffset ∧ n ≤ count ∧ n.toNat ≤ content.length - pos.toNat ∧
      (n = 0 → count = 0 ∨ content.length ≤ pos.toNat)

/-- A descriptor, with the file behind it and its answer to the `k`-th call. -/
structure DirectFile where
  fd : Int32
  content : List UInt8
  length_lt : content.length < maxOffset
  pread : Nat → UInt64 → UInt64 → Pread
  allowed : ∀ k count pos, (pread k count pos).Allowed content count pos

/-- `done`, and the memory that `dest` points into. -/
structure Filling where
  done : UInt64
  mem : PagedMemory

def kAlign : UInt64 := 4096

def aligned (v : UInt64) : Bool := v % kAlign = 0

namespace DirectFile

variable (f : DirectFile) (dest bytes offset : UInt64) (mem : PagedMemory)

/-- The bytes of the file from `pos` on. -/
def bytesFrom (pos : Nat) (i : Nat) : UInt8 := f.content.getD (pos + i) 0

/-- What `pread` answers in the `k`-th turn. -/
def answer (k : Nat) (s : Filling) : Pread := f.pread k (bytes - s.done) (offset + s.done)

/-- `n` more bytes of the file at `dest + done`. -/
def fill (s : Filling) (n : UInt64) : Filling where
  done := s.done + n
  mem := s.mem.write (dest.toNat + s.done.toNat) (f.bytesFrom (offset + s.done).toNat) n.toNat

/-- One turn of `while (done < bytes)`. -/
def readTurn (s : Filling) (a : Pread) : Filling ⊕ (Bool × PagedMemory) :=
  if s.done < bytes then
    match a with
    | .interrupted => .inl s
    | .failed => .inr (false, s.mem)
    | .count n =>
      if n = 0 then .inr (false, s.mem)
      else .inl (f.fill dest offset s n)
  else .inr (true, s.mem)

/-- Where the loop is after `k` turns. -/
def readLoop (k : Nat) : Filling ⊕ (Bool × PagedMemory) :=
  Retry.after (f.readTurn dest bytes offset) (f.answer bytes offset) ⟨0, mem⟩ k

/-- The verdict of `read_aligned` and the memory it leaves, within so many turns. -/
def readAligned (turns : Nat) : Option (Bool × PagedMemory) :=
  if f.fd < 0 ∨ dest = 0 then some (false, mem)
  else if !aligned offset || !aligned bytes || !aligned dest then some (false, mem)
  else
    match f.readLoop dest bytes offset mem turns with
    | .inl _ => none
    | .inr r => some r

/-- `read_aligned` returns with this verdict, leaving this memory. -/
def Returns (r : Bool × PagedMemory) : Prop :=
  ∃ turns, f.readAligned dest bytes offset mem turns = some r

/-- The calls of `pread` that are interrupted. -/
def interruptions : Set Nat :=
  Retry.putOff (f.readTurn dest bytes offset) (f.answer bytes offset) ⟨0, mem⟩ (· = .interrupted)

/-- A request of an open file that is not rejected. -/
structure Admitted : Prop where
  valid : ¬f.fd < 0
  nonnull : dest ≠ 0
  aligned : Stream.aligned offset ∧ Stream.aligned bytes ∧ Stream.aligned dest

/-- What has been written is the beginning of the range asked for. -/
structure Filled (s : Filling) : Prop where
  done_le : s.done ≤ bytes
  inside : 0 < s.done.toNat → offset.toNat + s.done.toNat ≤ f.content.length
  mem_eq : s.mem = mem.write dest.toNat (f.bytesFrom offset.toNat) s.done.toNat

variable {f dest bytes offset mem} {s s' : Filling} {k : Nat} {n : UInt64} {r : Bool × PagedMemory}

theorem readTurn_of_le (h : ¬s.done < bytes) (a : Pread) :
    f.readTurn dest bytes offset s a = .inr (true, s.mem) := if_neg h

theorem readTurn_interrupted (h : s.done < bytes) :
    f.readTurn dest bytes offset s .interrupted = .inl s := if_pos h

theorem readTurn_fails {a : Pread} (h : s.done < bytes) (ha : a = .failed ∨ a = .count 0) :
    f.readTurn dest bytes offset s a = .inr (false, s.mem) := by
  rcases ha with rfl | rfl
  · exact if_pos h
  · exact (if_pos h).trans (if_pos rfl)

theorem readTurn_count (h : s.done < bytes) (hn : n ≠ 0) :
    f.readTurn dest bytes offset s (.count n) = .inl (f.fill dest offset s n) :=
  (if_pos h).trans (if_neg hn)

/-- A turn goes on after an interrupted call or a positive count. -/
theorem readTurn_goes {a : Pread} (h : f.readTurn dest bytes offset s a = .inl s') :
    s.done < bytes ∧ (a = .interrupted ∧ s' = s ∨
      ∃ n, a = .count n ∧ n ≠ 0 ∧ s' = f.fill dest offset s n) := by
  by_cases hlt : s.done < bytes
  · refine ⟨hlt, ?_⟩
    cases a with
    | interrupted =>
      rw [readTurn_interrupted hlt] at h
      exact Or.inl ⟨rfl, (Sum.inl.inj h).symm⟩
    | failed =>
      rw [readTurn_fails hlt (Or.inl rfl)] at h
      cases h
    | count n =>
      by_cases hn : n = 0
      · rw [readTurn_fails hlt (Or.inr (by rw [hn]))] at h
        cases h
      · rw [readTurn_count hlt hn] at h
        exact Or.inr ⟨n, rfl, hn, (Sum.inl.inj h).symm⟩
  · rw [readTurn_of_le hlt] at h
    cases h

/-- It returns true once everything is there, and false after an error or at the end of the file. -/
theorem readTurn_returns {a : Pread} (h : f.readTurn dest bytes offset s a = .inr r) :
    r = (true, s.mem) ∧ ¬s.done < bytes ∨
      r = (false, s.mem) ∧ s.done < bytes ∧ (a = .failed ∨ a = .count 0) := by
  by_cases hlt : s.done < bytes
  · right
    have hfails : ∀ ha : a = .failed ∨ a = .count 0, r = (false, s.mem) := by
      intro ha
      rw [readTurn_fails hlt ha] at h
      exact (Sum.inr.inj h).symm
    cases a with
    | interrupted =>
      rw [readTurn_interrupted hlt] at h
      cases h
    | failed => exact ⟨hfails (Or.inl rfl), hlt, Or.inl rfl⟩
    | count n =>
      by_cases hn : n = 0
      · subst hn
        exact ⟨hfails (Or.inr rfl), hlt, Or.inr rfl⟩
      · rw [readTurn_count hlt hn] at h
        cases h
  · rw [readTurn_of_le hlt] at h
    exact Or.inl ⟨(Sum.inr.inj h).symm, hlt⟩

/-- The position of the next call does not wrap. -/
theorem Filled.toNat_pos (h : f.Filled dest bytes offset mem s) :
    (offset + s.done).toNat = offset.toNat + s.done.toNat := by
  have hlength := f.length_lt
  have hmax : maxOffset = 2 ^ 63 := rfl
  by_cases hz : s.done.toNat = 0
  · rw [UInt64.toNat_add, hz, Nat.add_zero, Nat.mod_eq_of_lt offset.toNat_lt]
  · have hin := h.inside (Nat.pos_of_ne_zero hz)
    rw [UInt64.toNat_add, Nat.mod_eq_of_lt (by omega)]

/-- A positive count that is allowed fills the next bytes of the range. -/
theorem count_bounds (h : f.Filled dest bytes offset mem s) (hlt : s.done < bytes) (hn : n ≠ 0)
    (ha : f.answer bytes offset k s = .count n) :
    (offset + s.done).toNat = offset.toNat + s.done.toNat ∧
      (s.done + n).toNat = s.done.toNat + n.toNat ∧ s.done.toNat + n.toNat ≤ bytes.toNat ∧
        offset.toNat + s.done.toNat + n.toNat ≤ f.content.length := by
  have hallowed := f.allowed k (bytes - s.done) (offset + s.done)
  rw [answer] at ha
  rw [ha] at hallowed
  obtain ⟨hpos, hcount, havail, _⟩ := hallowed
  have hpositive : 0 < n.toNat := Nat.pos_of_ne_zero fun hz => hn (UInt64.toNat_inj.mp hz)
  have hbytes := bytes.toNat_lt
  rw [UInt64.lt_iff_toNat_lt] at hlt
  rw [UInt64.le_iff_toNat_le, UInt64.toNat_sub_of_le _ _ h.done_le] at hcount
  have hsum := h.toNat_pos
  rw [hsum] at havail
  refine ⟨hsum, ?_, by omega, by omega⟩
  rw [UInt64.toNat_add, Nat.mod_eq_of_lt (by omega)]

theorem filled_start : f.Filled dest bytes offset mem ⟨0, mem⟩ :=
  ⟨UInt64.zero_le, fun h => absurd h (Nat.lt_irrefl 0), PagedMemory.write_zero.symm⟩

/-- What every turn keeps. -/
theorem filled_turn (k : Nat) (s s' : Filling) (h : f.Filled dest bytes offset mem s)
    (ht : f.readTurn dest bytes offset s (f.answer bytes offset k s) = .inl s') :
    f.Filled dest bytes offset mem s' := by
  obtain ⟨hlt, ⟨_, rfl⟩ | ⟨n, ha, hn, rfl⟩⟩ := readTurn_goes ht
  · exact h
  · rw [fill]
    obtain ⟨hpos, hsum, hle, hin⟩ := count_bounds h hlt hn ha
    refine ⟨?_, ?_, ?_⟩
    · rw [UInt64.le_iff_toNat_le, hsum]
      exact hle
    · intro _
      rw [hsum]
      omega
    · have hnext : f.bytesFrom (offset + s.done).toNat =
          fun i => f.bytesFrom offset.toNat (s.done.toNat + i) := by
        funext i
        rw [hpos, bytesFrom, bytesFrom, Nat.add_assoc]
      rw [hsum, h.mem_eq, hnext, PagedMemory.write_write]

theorem readLoop_filled (h : f.readLoop dest bytes offset mem k = .inl s) :
    f.Filled dest bytes offset mem s :=
  Retry.invariant filled_turn filled_start h

/-- Every count gets the loop ahead. -/
theorem left_lt (k : Nat) (s s' : Filling) (h : f.Filled dest bytes offset mem s)
    (ht : f.readTurn dest bytes offset s (f.answer bytes offset k s) = .inl s')
    (ha : ¬f.answer bytes offset k s = .interrupted) :
    bytes.toNat - s'.done.toNat < bytes.toNat - s.done.toNat := by
  obtain ⟨hlt, ⟨hint, _⟩ | ⟨n, hcount, hn, rfl⟩⟩ := readTurn_goes ht
  · exact (ha hint).elim
  · obtain ⟨_, hsum, hle, _⟩ := count_bounds h hlt hn hcount
    have hpositive : 0 < n.toNat := Nat.pos_of_ne_zero fun hz => hn (UInt64.toNat_inj.mp hz)
    rw [UInt64.lt_iff_toNat_lt] at hlt
    rw [fill, hsum]
    omega

/-- An admitted request returns what the loop returns. -/
theorem Admitted.returns_iff (h : f.Admitted dest bytes offset) :
    f.Returns dest bytes offset mem r ↔
      Retry.Returns (f.readTurn dest bytes offset) (f.answer bytes offset) ⟨0, mem⟩ r := by
  obtain ⟨hfd, hdest, hoff, hbytes, haligned⟩ := h
  have hloop : ∀ turns, f.readAligned dest bytes offset mem turns = some r ↔
      f.readLoop dest bytes offset mem turns = .inr r := by
    intro turns
    rw [readAligned, if_neg (not_or.mpr ⟨hfd, hdest⟩), hoff, hbytes, haligned]
    cases f.readLoop dest bytes offset mem turns with
    | inl s => simp
    | inr r' => simp
  exact exists_congr hloop

/-- A request that is not admitted is refused, and leaves the memory alone. -/
theorem readAligned_of_not_admitted (h : ¬f.Admitted dest bytes offset) (turns : Nat) :
    f.readAligned dest bytes offset mem turns = some (false, mem) := by
  by_cases hvalid : f.fd < 0 ∨ dest = 0
  · rw [readAligned, if_pos hvalid]
  · rw [readAligned, if_neg hvalid, if_pos]
    by_contra hal
    obtain ⟨hfd, hdest⟩ := not_or.mp hvalid
    simp only [Bool.or_eq_true, Bool.not_eq_true', not_or, Bool.not_eq_false] at hal
    exact h ⟨hfd, hdest, hal.1.1, hal.1.2, hal.2⟩

theorem returns_of_not_admitted (h : ¬f.Admitted dest bytes offset) :
    f.Returns dest bytes offset mem (false, mem) :=
  ⟨0, readAligned_of_not_admitted h 0⟩

theorem eq_of_not_admitted (h : ¬f.Admitted dest bytes offset)
    (hr : f.Returns dest bytes offset mem r) : r = (false, mem) := by
  obtain ⟨turns, hr⟩ := hr
  exact (Option.some.inj ((readAligned_of_not_admitted h turns).symm.trans hr)).symm

/-- A verdict of true means that the whole range lies in the file and has been read. -/
theorem complete_of_returns {mem' : PagedMemory} (h : f.Admitted dest bytes offset)
    (hr : f.Returns dest bytes offset mem (true, mem')) {i : Nat} (hi : i < bytes.toNat) :
    ∃ b, f.content[offset.toNat + i]? = some b ∧ mem' (dest.toNat + i) = some b := by
  obtain ⟨k, s, hloop, hturn⟩ := (h.returns_iff.mp hr).exists_turn
  have hs := readLoop_filled hloop
  obtain ⟨heq, hdone⟩ | ⟨heq, _⟩ := readTurn_returns hturn
  · obtain rfl := (Prod.mk.inj heq).2
    have hall : s.done = bytes := UInt64.le_antisymm hs.done_le (UInt64.not_lt.mp hdone)
    have hin := hs.inside (by rw [hall]; omega)
    rw [hall] at hin
    have hlt : offset.toNat + i < f.content.length := by omega
    have hget := List.getElem?_eq_getElem hlt
    refine ⟨f.content[offset.toNat + i], hget, ?_⟩
    rw [hs.mem_eq, hall, PagedMemory.holds_write i hi, bytesFrom, List.getD_eq_getElem?_getD, hget]
    rfl
  · cases heq

/-- It returns false exactly after an error or at the end of the file. -/
theorem returns_false_iff (h : f.Admitted dest bytes offset) :
    (∃ mem', f.Returns dest bytes offset mem (false, mem')) ↔
      ∃ k s, f.readLoop dest bytes offset mem k = .inl s ∧ s.done < bytes ∧
        (f.answer bytes offset k s = .failed ∨ f.answer bytes offset k s = .count 0) := by
  constructor
  · rintro ⟨mem', hr⟩
    obtain ⟨k, s, hloop, hturn⟩ := (h.returns_iff.mp hr).exists_turn
    obtain ⟨heq, _⟩ | ⟨_, hlt, ha⟩ := readTurn_returns hturn
    · cases heq
    · exact ⟨k, s, hloop, hlt, ha⟩
  · rintro ⟨k, s, hloop, hlt, ha⟩
    exact ⟨s.mem, h.returns_iff.mpr (Retry.returns_of_turn hloop (readTurn_fails hlt ha))⟩

/-- It returns once, with one verdict. -/
theorem returns_unique {r' : Bool × PagedMemory} (h : f.Admitted dest bytes offset)
    (hr : f.Returns dest bytes offset mem r) (hr' : f.Returns dest bytes offset mem r') : r = r' :=
  (h.returns_iff.mp hr).unique (h.returns_iff.mp hr')

/-- It returns if finitely many calls are interrupted. -/
theorem exists_returns (h : f.Admitted dest bytes offset)
    (hfin : (f.interruptions dest bytes offset mem).Finite) :
    ∃ r, f.Returns dest bytes offset mem r := by
  obtain ⟨r, hr⟩ := Retry.exists_returns (fun s => bytes.toNat - s.done.toNat) filled_turn left_lt
    filled_start hfin
  exact ⟨r, h.returns_iff.mpr hr⟩

/-- It returns in one way if finitely many calls are interrupted. -/
theorem existsUnique_returns (hfin : (f.interruptions dest bytes offset mem).Finite) :
    ∃! r, f.Returns dest bytes offset mem r := by
  by_cases h : f.Admitted dest bytes offset
  · obtain ⟨r, hr⟩ := exists_returns h hfin
    exact ⟨r, hr, fun r' hr' => returns_unique h hr' hr⟩
  · refine ⟨_, returns_of_not_admitted h, fun r' hr' => ?_⟩
    exact eq_of_not_admitted h hr'

/-- It leaves the front of the range at `dest`, all of it when the verdict is true. -/
theorem written_of_returns {ok : Bool} {mem' : PagedMemory}
    (hr : f.Returns dest bytes offset mem (ok, mem')) :
    ∃ n ≤ bytes.toNat, (ok = true → n = bytes.toNat) ∧
      mem' = mem.write dest.toNat (f.bytesFrom offset.toNat) n := by
  by_cases h : f.Admitted dest bytes offset
  case neg =>
    obtain ⟨rfl, rfl⟩ := Prod.mk.inj (eq_of_not_admitted h hr)
    exact ⟨0, Nat.zero_le _, nofun, PagedMemory.write_zero.symm⟩
  obtain ⟨k, s, hloop, hturn⟩ := (h.returns_iff.mp hr).exists_turn
  have hs := readLoop_filled hloop
  refine ⟨s.done.toNat, UInt64.le_iff_toNat_le.mp hs.done_le, ?_, ?_⟩
  · rintro rfl
    obtain ⟨_, hdone⟩ | ⟨heq, _⟩ := readTurn_returns hturn
    · exact congrArg UInt64.toNat (UInt64.le_antisymm hs.done_le (UInt64.not_lt.mp hdone))
    · cases heq
  · rw [← hs.mem_eq]
    obtain ⟨heq, _⟩ | ⟨heq, _⟩ := readTurn_returns hturn
    · exact (Prod.mk.inj heq).2
    · exact (Prod.mk.inj heq).2

/-- Within the file no call comes to the end of it. -/
theorem answer_ne_zero (hin : offset.toNat + bytes.toNat ≤ f.content.length)
    (hloop : f.readLoop dest bytes offset mem k = .inl s) (hlt : s.done < bytes) :
    f.answer bytes offset k s ≠ .count 0 := by
  intro ha
  have hallowed := f.allowed k (bytes - s.done) (offset + s.done)
  rw [answer] at ha
  rw [ha] at hallowed
  have hsum := (readLoop_filled hloop).toNat_pos
  have hle := (readLoop_filled hloop).done_le
  rw [UInt64.lt_iff_toNat_lt] at hlt
  rcases hallowed.2.2.2 rfl with hz | hend
  · have hleft := congrArg UInt64.toNat hz
    rw [UInt64.toNat_sub_of_le _ _ hle, UInt64.toNat_zero] at hleft
    omega
  · omega

/-- For every file, request and answers of `pread`: a verdict of true means that all bytes asked for
are there; it is false exactly if a call failed or came to the end of the file; and there is a
verdict if finitely many calls are interrupted. -/
theorem readAligned_allOrNothing (f : DirectFile) (dest bytes offset : UInt64) (mem : PagedMemory)
    (h : f.Admitted dest bytes offset) :
    (∀ mem', f.Returns dest bytes offset mem (true, mem') → ∀ i < bytes.toNat,
      ∃ b, f.content[offset.toNat + i]? = some b ∧ mem' (dest.toNat + i) = some b) ∧
    ((∃ mem', f.Returns dest bytes offset mem (false, mem')) ↔
      ∃ k s, f.readLoop dest bytes offset mem k = .inl s ∧ s.done < bytes ∧
        (f.answer bytes offset k s = .failed ∨ f.answer bytes offset k s = .count 0)) ∧
    ((f.interruptions dest bytes offset mem).Finite →
      ∃ r, f.Returns dest bytes offset mem r) := by
  exact ⟨fun mem' hr i hi => complete_of_returns h hr hi, returns_false_iff h, exists_returns h⟩

/-- The first call is interrupted, later ones read all there is of a file of so many bytes. -/
def onesPread (size : UInt64) (k : Nat) (count pos : UInt64) : Pread :=
  if k = 0 then .interrupted
  else if pos < size then .count (if count ≤ size - pos then count else size - pos)
  else .failed

theorem onesPread_allowed {size : UInt64} (hsize : size.toNat < maxOffset) (k : Nat)
    (count pos : UInt64) :
    (onesPread size k count pos).Allowed (List.replicate size.toNat 1) count pos := by
  unfold onesPread
  split
  · trivial
  · split
    · rename_i hpos
      have hsub : (size - pos).toNat = size.toNat - pos.toNat :=
        UInt64.toNat_sub_of_le _ _ (UInt64.le_of_lt hpos)
      rw [UInt64.lt_iff_toNat_lt] at hpos
      by_cases hcount : count ≤ size - pos
      · rw [if_pos hcount]
        refine ⟨by omega, UInt64.le_refl _, ?_, Or.inl⟩
        rw [UInt64.le_iff_toNat_le] at hcount
        rw [List.length_replicate]
        omega
      · rw [if_neg hcount]
        refine ⟨by omega, UInt64.le_of_lt (UInt64.not_le.mp hcount), ?_, ?_⟩
        · rw [List.length_replicate]
          omega
        · intro hz
          have hzero := congrArg UInt64.toNat hz
          rw [hsub, UInt64.toNat_zero] at hzero
          omega
    · trivial

/-- A file of ones. -/
def onesFile (size : UInt64) (hsize : size.toNat < maxOffset) : DirectFile where
  fd := 3
  content := List.replicate size.toNat 1
  length_lt := by rwa [List.length_replicate]
  pread := onesPread size
  allowed := onesPread_allowed hsize

def onesPage : DirectFile := onesFile 4096 (by decide)

theorem readAligned_allOrNothing_onesPage :
    (∃ r, onesPage.Returns 8192 4096 0 (fun _ => none) r) ∧
      ∀ mem', onesPage.Returns 8192 4096 0 (fun _ => none) (true, mem') →
        ∀ i < (4096 : UInt64).toNat, ∃ b,
          onesPage.content[(0 : UInt64).toNat + i]? = some b ∧
            mem' ((8192 : UInt64).toNat + i) = some b := by
  obtain ⟨hcomplete, _, hends⟩ := readAligned_allOrNothing onesPage 8192 4096 0 (fun _ => none)
    ⟨by decide, by decide, by decide⟩
  refine ⟨hends ((Set.finite_singleton 0).subset ?_), hcomplete⟩
  rintro k ⟨s, _, hk⟩
  by_contra hne
  have hlater : k ≠ 0 := hne
  simp only [answer, onesPage, onesFile, onesPread, if_neg hlater] at hk
  split at hk
  · cases hk
  · cases hk

end DirectFile

end NotreEngine.Stream
