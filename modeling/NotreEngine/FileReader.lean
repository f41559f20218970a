import NotreEngine.LittleEndian

/-!
# Reading a file at a position

Readers take a file and a position to a value and the next position, or fail. A reader is described
by what it accepts: the bytes it may read, at a position, for a value. The rules compose such
descriptions, in both directions.
-/

namespace FileReader

/-- Positions stay below this; a seek to it or past it fails. -/
def maxOffset : Nat := 2 ^ 63

def Reader (ε α : Type) : Type := List UInt8 → Nat → Except ε (α × Nat)

variable {ε α β σ ι : Type}

namespace Reader

def pure (a : α) : Reader ε α := fun _ pos => .ok (a, pos)

def bind (p : Reader ε α) (f : α → Reader ε β) : Reader ε β := fun file pos =>
  match p file pos with
  | .ok (a, pos) => f a file pos
  | .error e => .error e

instance : Monad (Reader ε) where
  pure := pure
  bind := bind

def fail (e : ε) : Reader ε α := fun _ _ => .error e

def tell : Reader ε Nat := fun _ pos => .ok (pos, pos)

/-- The next `n` bytes, all of them. -/
def take (n : Nat) (e : ε) : Reader ε (List UInt8) := fun file pos =>
  if pos + n ≤ file.length then .ok ((file.drop pos).take n, pos + n) else .error e

/-- A seek forward, which may go past the end. -/
def skip (n : Nat) (e : ε) : Reader ε Unit := fun _ pos =>
  if pos + n < maxOffset then .ok ((), pos + n) else .error e

/-- Failures reported as another error. -/
def mapError (e : ε) (p : Reader ε α) : Reader ε α := fun file pos =>
  match p file pos with
  | .ok r => .ok r
  | .error _ => .error e

/-- A little-endian number of `w` bytes. -/
def number (w : Nat) (e : ε) : Reader ε Nat := do
  let bs ← take w e
  return LittleEndian.value bs

/-- A recursion as deep as the file is long. -/
def sized (p : Nat → Reader ε α) : Reader ε α := fun file => p file.length file

/-- A loop of `n` turns that hands on a state. -/
def iterate (step : σ → Reader ε σ) : Nat → σ → Reader ε σ
  | 0, s => pure s
  | n + 1, s => do
    let s ← step s
    iterate step n s

end Reader

/-- What a loop has stored after reading these items, the first at `pos`. -/
def storeAll (spell : ι → List UInt8) (store : Nat → ι → σ → σ) : Nat → List ι → σ → σ
  | _, [], s => s
  | pos, i :: is, s => storeAll spell store (pos + (spell i).length) is (store pos i s)

theorem storeAll_append (spell : ι → List UInt8) (store : Nat → ι → σ → σ) (pos : Nat)
    (is js : List ι) (s : σ) :
    storeAll spell store pos (is ++ js) s =
      storeAll spell store (pos + (is.flatMap spell).length) js (storeAll spell store pos is s) := by
  induction is generalizing pos s with
  | nil => rfl
  | cons i is ih =>
    rw [List.cons_append, storeAll, storeAll, ih, List.flatMap_cons, List.length_append,
      Nat.add_assoc]

/-- The items at their positions. -/
def located (spell : ι → List UInt8) (f : Nat → ι → α) : Nat → List ι → List α
  | _, [] => []
  | pos, i :: is => f pos i :: located spell f (pos + (spell i).length) is

theorem storeAll_push (spell : ι → List UInt8) (f : Nat → ι → α) (pos : Nat) (is : List ι)
    (xs : List α) :
    storeAll spell (fun pos i xs => xs ++ [f pos i]) pos is xs = xs ++ located spell f pos is := by
  induction is generalizing pos xs with
  | nil => exact (List.append_nil _).symm
  | cons i is ih => rw [storeAll, ih, located, List.append_assoc, List.singleton_append]

/-- What does not depend on the position. -/
theorem map_located (spell : ι → List UInt8) {f : Nat → ι → α} {g : α → β} {h : ι → β}
    (hf : ∀ pos i, g (f pos i) = h i) (pos : Nat) (is : List ι) :
    (located spell f pos is).map g = is.map h := by
  induction is generalizing pos with
  | nil => rfl
  | cons i is ih => rw [located, List.map_cons, ih, hf, List.map_cons]

theorem located_map (spell : ι → List UInt8) (f : ι → α) (pos : Nat) (is : List ι) :
    located spell (fun _ => f) pos is = is.map f := by
  induction is generalizing pos with
  | nil => rfl
  | cons i is ih => rw [located, ih, List.map_cons]

theorem located_append (spell : ι → List UInt8) (f : Nat → ι → α) (pos : Nat)
    (is js : List ι) : located spell f pos (is ++ js) =
      located spell f pos is ++ located spell f (pos + (is.flatMap spell).length) js := by
  induction is generalizing pos with
  | nil => rfl
  | cons i is ih =>
    rw [List.cons_append, located, located, ih, List.flatMap_cons, List.length_append,
      Nat.add_assoc, List.cons_append]

theorem length_located (spell : ι → List UInt8) (f : Nat → ι → α) (pos : Nat)
    (is : List ι) : (located spell f pos is).length = is.length := by
  induction is generalizing pos with
  | nil => rfl
  | cons i is ih => rw [located, List.length_cons, ih, List.length_cons]

/-- The item at an index, and its position. -/
theorem located_getElem? {spell : ι → List UInt8} {f : Nat → ι → α} {pos i : Nat}
    {is : List ι} {a : α} (h : (located spell f pos is)[i]? = some a) :
    ∃ pre x post, is = pre ++ x :: post ∧ pre.length = i ∧
      a = f (pos + (pre.flatMap spell).length) x := by
  induction is generalizing pos i with
  | nil => cases h
  | cons x is ih =>
    cases i with
    | zero =>
      rw [located, List.getElem?_cons_zero] at h
      cases h
      exact ⟨[], x, is, rfl, rfl, rfl⟩
    | succ i =>
      rw [located, List.getElem?_cons_succ] at h
      obtain ⟨pre, y, post, rfl, rfl, rfl⟩ := ih h
      refine ⟨x :: pre, y, post, rfl, rfl, ?_⟩
      rw [List.flatMap_cons, List.length_append, Nat.add_assoc]

/-- The file holds these bytes from one position to the other. -/
def Spans (file : List UInt8) (pos : Nat) (bs : List UInt8) (pos' : Nat) : Prop :=
  bs <+: file.drop pos ∧ pos' = pos + bs.length ∧ pos' ≤ file.length

variable {file xs ys bs : List UInt8} {pos pos' : Nat} {e : ε} {p : Reader ε α}
  {f : α → Reader ε β} {a : α} {b : β}

theorem spans_nil : Spans file pos [] pos' ↔ pos' = pos ∧ pos ≤ file.length := by
  constructor
  · rintro ⟨_, rfl, hle⟩
    exact ⟨rfl, hle⟩
  · rintro ⟨rfl, hle⟩
    exact ⟨List.nil_prefix, rfl, hle⟩

theorem spans_append : Spans file pos (xs ++ ys) pos' ↔
    ∃ mid, Spans file pos xs mid ∧ Spans file mid ys pos' := by
  constructor
  · rintro ⟨⟨zs, hzs⟩, hpos, hle⟩
    rw [List.length_append] at hpos
    refine ⟨pos + xs.length, ⟨⟨ys ++ zs, ?_⟩, rfl, by omega⟩, ⟨⟨zs, ?_⟩, by omega, hle⟩⟩
    · rw [← hzs, List.append_assoc]
    · rw [← List.drop_drop, ← hzs, List.append_assoc, List.drop_left]
  · rintro ⟨mid, ⟨⟨us, hus⟩, rfl, _⟩, ⟨zs, hzs⟩, hpos, hle⟩
    refine ⟨⟨zs, ?_⟩, by rw [List.length_append]; omega, hle⟩
    rw [← List.drop_drop, ← hus, List.drop_left] at hzs
    rw [← hus, List.append_assoc, hzs]

theorem spans_zero : Spans file 0 xs pos' ↔ xs <+: file ∧ pos' = xs.length := by
  rw [Spans, List.drop_zero, Nat.zero_add]
  constructor
  · exact fun h => ⟨h.1, h.2.1⟩
  · exact fun h => ⟨h.1, h.2, h.2.trans_le h.1.length_le⟩

/-- What a reader accepts: it returns a value within the file exactly when the bytes it has gone
over are ones `R` allows there for that value. It never goes back. -/
structure Accepts (p : Reader ε α) (R : Nat → α → List UInt8 → Prop) : Prop where
  forward : ∀ {file pos a pos'}, p file pos = .ok (a, pos') → pos ≤ pos'
  bounded : ∀ {file pos a pos'}, file.length < maxOffset → pos < maxOffset →
    p file pos = .ok (a, pos') → pos' < maxOffset
  iff : ∀ {file pos a pos'}, file.length < maxOffset →
    (p file pos = .ok (a, pos') ∧ pos' ≤ file.length ↔ ∃ bs, R pos a bs ∧ Spans file pos bs pos')

theorem take_ok {n : Nat} : Reader.take n e file pos = .ok (bs, pos') ↔
    pos + n ≤ file.length ∧ bs = (file.drop pos).take n ∧ pos' = pos + n := by
  unfold Reader.take
  split
  · simp only [Except.ok.injEq, Prod.mk.injEq, eq_comm, true_and, *]
  · simp only [reduceCtorEq, false_and, *]

theorem skip_ok {n : Nat} {u : Unit} : Reader.skip n e file pos = .ok (u, pos') ↔
    pos + n < maxOffset ∧ pos' = pos + n := by
  unfold Reader.skip
  split
  · simp only [Except.ok.injEq, Prod.mk.injEq, eq_comm, true_and, *]
  · simp only [reduceCtorEq, false_and, *]

theorem mapError_ok {a : α} :
    Reader.mapError e p file pos = .ok (a, pos') ↔ p file pos = .ok (a, pos') := by
  unfold Reader.mapError
  cases p file pos with
  | ok r => rfl
  | error e' =>
    constructor
    · intro h
      cases h
    · intro h
      cases h

theorem bind_ok : (p >>= f) file pos = .ok (b, pos') ↔
    ∃ a mid, p file pos = .ok (a, mid) ∧ f a file mid = .ok (b, pos') := by
  show Reader.bind p f file pos = _ ↔ _
  unfold Reader.bind
  cases hp : p file pos with
  | error e =>
    constructor
    · intro h
      cases h
    · rintro ⟨a, mid, h, _⟩
      cases h
  | ok r =>
    obtain ⟨a, mid⟩ := r
    constructor
    · exact fun h => ⟨a, mid, rfl, h⟩
    · rintro ⟨a', mid', h, hf⟩
      cases h
      exact hf

theorem bind_of_ok {mid : Nat} (h : p file pos = .ok (a, mid)) :
    (p >>= f) file pos = f a file mid := by
  show Reader.bind p f file pos = _
  rw [Reader.bind, h]

namespace Accepts

variable {R R' : Nat → α → List UInt8 → Prop} {S : α → Nat → β → List UInt8 → Prop}

theorem congr (h : Accepts p R) (hR : ∀ pos a bs, R pos a bs ↔ R' pos a bs) : Accepts p R' := by
  refine ⟨h.forward, h.bounded, fun hlen => (h.iff hlen).trans ?_⟩
  simp only [hR]

theorem pure (a : α) :
    Accepts (pure a : Reader ε α) fun _ a' bs => a' = a ∧ bs = [] := by
  have heq : ∀ {file pos a' pos'},
      (Pure.pure a : Reader ε α) file pos = .ok (a', pos') ↔ a' = a ∧ pos' = pos := by
    intro file pos a' pos'
    show (Except.ok (a, pos) : Except ε (α × Nat)) = _ ↔ _
    simp only [Except.ok.injEq, Prod.mk.injEq, eq_comm]
  refine ⟨fun h => (heq.mp h).2.ge, fun _ hpos h => (heq.mp h).2 ▸ hpos,
    fun {file pos a' pos'} _ => ?_⟩
  rw [heq]
  constructor
  · rintro ⟨⟨rfl, rfl⟩, hle⟩
    exact ⟨[], ⟨rfl, rfl⟩, spans_nil.mpr ⟨rfl, hle⟩⟩
  · rintro ⟨bs, ⟨rfl, rfl⟩, hs⟩
    obtain ⟨rfl, hle⟩ := spans_nil.mp hs
    exact ⟨⟨rfl, rfl⟩, hle⟩

/-- One reader after the other: the bytes of the first, then those of the second. -/
theorem bind (hp : Accepts p R) (hf : ∀ a, Accepts (f a) (S a)) :
    Accepts (p >>= f) fun pos b bs =>
      ∃ a xs ys, bs = xs ++ ys ∧ R pos a xs ∧ S a (pos + xs.length) b ys := by
  refine ⟨fun h => ?_, fun hlen hpos h => ?_, fun {file pos b pos'} hlen => ?_⟩
  · obtain ⟨a, mid, h₁, h₂⟩ := bind_ok.mp h
    exact (hp.forward h₁).trans ((hf a).forward h₂)
  · obtain ⟨a, mid, h₁, h₂⟩ := bind_ok.mp h
    exact (hf a).bounded hlen (hp.bounded hlen hpos h₁) h₂
  · constructor
    · rintro ⟨h, hle⟩
      obtain ⟨a, mid, h₁, h₂⟩ := bind_ok.mp h
      obtain ⟨xs, hxs, hs₁⟩ := (hp.iff hlen).mp ⟨h₁, ((hf a).forward h₂).trans hle⟩
      obtain ⟨ys, hys, hs₂⟩ := ((hf a).iff hlen).mp ⟨h₂, hle⟩
      refine ⟨xs ++ ys, ⟨a, xs, ys, rfl, hxs, ?_⟩, spans_append.mpr ⟨mid, hs₁, hs₂⟩⟩
      rwa [← hs₁.2.1]
    · rintro ⟨bs, ⟨a, xs, ys, rfl, hxs, hys⟩, hs⟩
      obtain ⟨mid, hs₁, hs₂⟩ := spans_append.mp hs
      rw [← hs₁.2.1] at hys
      obtain ⟨h₁, _⟩ := (hp.iff hlen).mpr ⟨xs, hxs, hs₁⟩
      obtain ⟨h₂, hle⟩ := ((hf a).iff hlen).mpr ⟨ys, hys, hs₂⟩
      exact ⟨bind_ok.mpr ⟨a, mid, h₁, h₂⟩, hle⟩

theorem fail (e : ε) : Accepts (Reader.fail e : Reader ε α) fun _ _ _ => False := by
  have hno : ∀ {file pos a pos'}, (Reader.fail e : Reader ε α) file pos ≠ .ok (a, pos') := by
    intro file pos a pos' h
    cases h
  refine ⟨fun h => (hno h).elim, fun _ _ h => (hno h).elim,
    fun _ => iff_of_false (fun h => hno h.1) ?_⟩
  rintro ⟨_, h, _⟩
  exact h

theorem tell : Accepts (Reader.tell : Reader ε Nat) fun pos a bs => a = pos ∧ bs = [] := by
  refine ⟨?_, ?_, fun {file pos a pos'} _ => ?_⟩
  · intro file pos a pos' h
    cases h
    exact le_rfl
  · intro file pos a pos' _ hpos h
    cases h
    exact hpos
  · constructor
    · rintro ⟨h, hle⟩
      cases h
      exact ⟨[], ⟨rfl, rfl⟩, spans_nil.mpr ⟨rfl, hle⟩⟩
    · rintro ⟨bs, ⟨rfl, rfl⟩, hs⟩
      obtain ⟨rfl, hle⟩ := spans_nil.mp hs
      exact ⟨rfl, hle⟩

theorem take (n : Nat) (e : ε) :
    Accepts (Reader.take n e) fun _ a bs => a = bs ∧ bs.length = n := by
  refine ⟨?_, ?_, fun {file pos a pos'} _ => ?_⟩
  · intro file pos a pos' h
    obtain ⟨_, _, rfl⟩ := take_ok.mp h
    exact Nat.le_add_right _ _
  · intro file pos a pos' hlen _ h
    obtain ⟨hle, _, rfl⟩ := take_ok.mp h
    exact hle.trans_lt hlen
  · constructor
    · rintro ⟨h, hle⟩
      obtain ⟨_, rfl, rfl⟩ := take_ok.mp h
      have hlen : ((file.drop pos).take n).length = n := by
        rw [List.length_take, List.length_drop]
        omega
      exact ⟨_, ⟨rfl, hlen⟩, List.take_prefix _ _, by rw [hlen], hle⟩
    · rintro ⟨bs, ⟨rfl, rfl⟩, hpre, rfl, hle⟩
      exact ⟨take_ok.mpr ⟨hle, List.prefix_iff_eq_take.mp hpre, rfl⟩, hle⟩

theorem skip (n : Nat) (e : ε) :
    Accepts (Reader.skip n e) fun _ _ bs => bs.length = n := by
  refine ⟨?_, ?_, fun {file pos a pos'} hlen => ?_⟩
  · intro file pos a pos' h
    obtain ⟨_, rfl⟩ := skip_ok.mp h
    exact Nat.le_add_right _ _
  · intro file pos a pos' _ _ h
    obtain ⟨hlt, rfl⟩ := skip_ok.mp h
    exact hlt
  · constructor
    · rintro ⟨h, hle⟩
      obtain ⟨_, rfl⟩ := skip_ok.mp h
      have hn : ((file.drop pos).take n).length = n := by
        rw [List.length_take, List.length_drop]
        omega
      exact ⟨_, hn, List.take_prefix _ _, by rw [hn], hle⟩
    · rintro ⟨bs, rfl, _, rfl, hle⟩
      exact ⟨skip_ok.mpr ⟨by omega, rfl⟩, hle⟩

theorem mapError (e : ε) (h : Accepts p R) : Accepts (Reader.mapError e p) R :=
  ⟨fun hp => h.forward (mapError_ok.mp hp),
    fun hlen hpos hp => h.bounded hlen hpos (mapError_ok.mp hp),
    fun hlen => by rw [mapError_ok]; exact h.iff hlen⟩

/-- A check that a read value does not pass. -/
theorem check {c : Prop} [Decidable c] (e : ε) (h : Accepts p R) :
    Accepts (if c then Reader.fail e else p) fun pos a bs => ¬c ∧ R pos a bs := by
  split
  · rename_i hc
    exact (fail e).congr fun _ _ _ => iff_of_false id fun h => h.1 hc
  · rename_i hc
    exact h.congr fun _ _ _ => (and_iff_right hc).symm

/-- A recursion that takes bytes at every level is never cut off. -/
theorem sized {p : Nat → Reader ε α} {R : Nat → Nat → α → List UInt8 → Prop}
    (h : ∀ n, Accepts (p n) (R n))
    (hdeep : ∀ {n m pos a bs}, R n pos a bs → bs.length ≤ m → R m pos a bs) :
    Accepts (Reader.sized p) fun pos a bs => ∃ n, R n pos a bs := by
  refine ⟨fun {file _ _ _} hp => (h file.length).forward hp,
    fun {file _ _ _} hlen hpos hp => (h file.length).bounded hlen hpos hp,
    fun {file pos a pos'} hlen => ((h file.length).iff hlen).trans ?_⟩
  constructor
  · rintro ⟨bs, hbs, hs⟩
    exact ⟨bs, ⟨_, hbs⟩, hs⟩
  · rintro ⟨bs, ⟨n, hbs⟩, hs⟩
    refine ⟨bs, hdeep hbs ?_, hs⟩
    have hend := hs.2.1
    have hle := hs.2.2
    omega

theorem number (w : Nat) (e : ε) :
    Accepts (Reader.number w e) fun _ n bs => n < 256 ^ w ∧ bs = LittleEndian.bytes w n := by
  refine ((take w e).bind fun bs => pure (LittleEndian.value bs)).congr fun pos n bs => ?_
  constructor
  · rintro ⟨_, xs, _, rfl, ⟨rfl, rfl⟩, rfl, rfl⟩
    exact ⟨LittleEndian.value_lt _, by rw [LittleEndian.bytes_value, List.append_nil]⟩
  · rintro ⟨hn, rfl⟩
    exact ⟨_, _, [], (List.append_nil _).symm, ⟨rfl, LittleEndian.length_bytes w n⟩,
      (LittleEndian.value_bytes_of_lt hn).symm, rfl⟩

/-- A loop reads one item after the other when its step reads one. -/
theorem iterate {ok : ι → Prop} {spell : ι → List UInt8} {store : Nat → ι → σ → σ}
    {step : σ → Reader ε σ}
    (h : ∀ s, Accepts (step s) fun pos s' bs => ∃ i, ok i ∧ bs = spell i ∧ s' = store pos i s)
    (n : Nat) (s : σ) :
    Accepts (Reader.iterate step n s) fun pos s' bs =>
      ∃ is : List ι, is.length = n ∧ (∀ i ∈ is, ok i) ∧ bs = is.flatMap spell ∧
        s' = storeAll spell store pos is s := by
  induction n generalizing s with
  | zero =>
    refine (pure s).congr fun pos s' bs => ?_
    constructor
    · rintro ⟨rfl, rfl⟩
      exact ⟨[], rfl, by simp, rfl, rfl⟩
    · rintro ⟨is, hlen, _, rfl, rfl⟩
      rw [List.eq_nil_of_length_eq_zero hlen]
      exact ⟨rfl, rfl⟩
  | succ n ih =>
    refine ((h s).bind ih).congr fun pos s' bs => ?_
    constructor
    · rintro ⟨_, _, _, rfl, ⟨i, hi, rfl, rfl⟩, is, rfl, his, rfl, rfl⟩
      exact ⟨i :: is, rfl, List.forall_mem_cons.mpr ⟨hi, his⟩, rfl, rfl⟩
    · rintro ⟨is, hlen, his, rfl, rfl⟩
      cases is with
      | nil => cases hlen
      | cons i is =>
        obtain ⟨hi, his⟩ := List.forall_mem_cons.mp his
        exact ⟨_, _, _, rfl, ⟨i, hi, rfl, rfl⟩, is, Nat.succ.inj hlen, his, rfl, rfl⟩

end Accepts

end FileReader
