import NotreEngine.FileReader

/-!
# Reading past the end of a file

A seek may leave the file, a read may not. A reader is described by what it returns past the end:
at a position, for a value, the bytes left of the file, and how many more it would have needed.
-/

namespace FileReader

variable {ε α β σ ι : Type} {file xs bs : List UInt8} {pos pos' w n : Nat} {e : ε}
  {p : Reader ε α} {f : α → Reader ε β} {a : α} {b : β}

/-- What a reader returns past the end, from inside the file. -/
structure Overruns (p : Reader ε α) (C : Nat → α → List UInt8 → Nat → Prop) : Prop where
  iff : ∀ {file pos a k}, file.length + k < maxOffset → pos ≤ file.length → 0 < k →
    (p file pos = .ok (a, file.length + k) ↔ C pos a (file.drop pos) k)

/-- Inside the file it stays there. -/
def Stays (p : Reader ε α) : Prop := Overruns p fun _ _ _ _ => False

/-- Past the end it returns nothing. -/
structure Halts (p : Reader ε α) : Prop where
  ne : ∀ {file pos a pos'}, file.length < pos → p file pos ≠ .ok (a, pos')

namespace Halts

theorem take (n : Nat) (e : ε) : Halts (Reader.take n e) := by
  refine ⟨fun {file pos a pos'} hpos h => ?_⟩
  have hle := (take_ok.mp h).1
  omega

theorem fail (e : ε) : Halts (Reader.fail e : Reader ε α) := by
  refine ⟨fun {file pos a pos'} _ h => ?_⟩
  cases h

theorem bind (hp : Halts p) (f : α → Reader ε β) : Halts (p >>= f) := by
  refine ⟨fun {file pos b pos'} hpos h => ?_⟩
  obtain ⟨a, mid, h, _⟩ := bind_ok.mp h
  exact hp.ne hpos h

theorem number (w : Nat) (e : ε) : Halts (Reader.number w e) := (take w e).bind _

theorem mapError (e : ε) (hp : Halts p) : Halts (Reader.mapError e p) :=
  ⟨fun hpos h => hp.ne hpos (mapError_ok.mp h)⟩

/-- A loop that halts in its first turn. -/
theorem iterate {step : σ → Reader ε σ} (h : ∀ s, Halts (step s)) (n : Nat) (s : σ) :
    Halts (Reader.iterate step (n + 1) s) :=
  (h s).bind _

end Halts

variable {R : Nat → α → List UInt8 → Prop} {C C' : Nat → α → List UInt8 → Nat → Prop}
  {D : α → Nat → β → List UInt8 → Nat → Prop}

theorem Overruns.congr (h : Overruns p C)
    (hC : ∀ pos a bs k, 0 < k → (C pos a bs k ↔ C' pos a bs k)) : Overruns p C' := by
  refine ⟨fun {file pos a k} hmax hpos hk => ?_⟩
  exact (h.iff hmax hpos hk).trans (hC pos a _ k hk)

namespace Stays

theorem pure (a : α) : Stays (pure a : Reader ε α) := by
  refine ⟨fun {file pos a' k} _ hpos hk => ?_⟩
  refine iff_of_false (fun h => ?_) id
  cases h
  omega

theorem tell : Stays (Reader.tell : Reader ε Nat) := by
  refine ⟨fun {file pos a k} _ hpos hk => ?_⟩
  refine iff_of_false (fun h => ?_) id
  cases h
  omega

theorem fail (e : ε) : Stays (Reader.fail e : Reader ε α) := by
  refine ⟨fun {file pos a k} _ _ _ => ?_⟩
  refine iff_of_false (fun h => ?_) id
  cases h

theorem take (n : Nat) (e : ε) : Stays (Reader.take n e) := by
  refine ⟨fun {file pos a k} _ _ hk => ?_⟩
  refine iff_of_false (fun h => ?_) id
  have hle := take_ok.mp h
  omega

theorem check {c : Prop} [Decidable c] (e : ε) (h : Stays p) :
    Stays (if c then Reader.fail e else p) := by
  split
  · exact fail e
  · exact h

/-- After a reader that stays in the file. -/
theorem bind (hin : Stays p) (hp : Accepts p R) (hf : ∀ a, Overruns (f a) (D a)) :
    Overruns (p >>= f) fun pos b bs k =>
      ∃ a xs ys, bs = xs ++ ys ∧ R pos a xs ∧ D a (pos + xs.length) b ys k := by
  refine ⟨fun {file pos b k} hmax hpos hk => ?_⟩
  have hlen : file.length < maxOffset := by omega
  constructor
  · intro h
    obtain ⟨a, mid, h₁, h₂⟩ := bind_ok.mp h
    have hmid : mid ≤ file.length := by
      by_contra hout
      have hbound := hp.bounded hlen (hpos.trans_lt hlen) h₁
      obtain ⟨d, rfl⟩ := Nat.exists_eq_add_of_lt (not_le.mp hout)
      exact (hin.iff hbound hpos (Nat.succ_pos d)).mp h₁
    obtain ⟨xs, hxs, ⟨ys, hys⟩, rfl, _⟩ := (hp.iff hlen).mp ⟨h₁, hmid⟩
    refine ⟨a, xs, ys, hys.symm, hxs, ?_⟩
    have hrest := ((hf a).iff hmax hmid hk).mp h₂
    rwa [← List.drop_drop, ← hys, List.drop_left] at hrest
  · rintro ⟨a, xs, ys, hbs, hxs, hys⟩
    have hsum : xs.length + ys.length = file.length - pos := by
      rw [← List.length_append, ← hbs, List.length_drop]
    have hmid : pos + xs.length ≤ file.length := by omega
    obtain ⟨h₁, _⟩ := (hp.iff hlen).mpr ⟨xs, hxs, ⟨ys, hbs.symm⟩, rfl, hmid⟩
    refine bind_ok.mpr ⟨a, _, h₁, ((hf a).iff hmax hmid hk).mpr ?_⟩
    rwa [← List.drop_drop, hbs, List.drop_left]

/-- Two of the kind, one after the other. -/
theorem seq (hin : Stays p) (hp : Accepts p R) (hf : ∀ a, Stays (f a)) : Stays (p >>= f) := by
  refine (hin.bind hp hf).congr fun pos b bs k _ => iff_of_false ?_ id
  rintro ⟨_, _, _, _, _, h⟩
  exact h

theorem number (w : Nat) (e : ε) : Stays (Reader.number w e) :=
  (take w e).seq (Accepts.take w e) fun bs => pure (LittleEndian.value bs)

theorem iterate {step : σ → Reader ε σ} {R : σ → Nat → σ → List UInt8 → Prop}
    (h : ∀ s, Accepts (step s) (R s)) (hin : ∀ s, Stays (step s)) (n : Nat) (s : σ) :
    Stays (Reader.iterate step n s) := by
  induction n generalizing s with
  | zero => exact pure s
  | succ n ih => exact (hin s).seq (h s) ih

end Stays

namespace Overruns

theorem mapError (e : ε) (h : Overruns p C) : Overruns (Reader.mapError e p) C := by
  refine ⟨fun {file pos a k} hmax hpos hk => ?_⟩
  exact mapError_ok.trans (h.iff hmax hpos hk)

theorem check {c : Prop} [Decidable c] (e : ε) (h : Overruns p C) :
    Overruns (if c then Reader.fail e else p) fun pos a bs k => ¬c ∧ C pos a bs k := by
  split
  · rename_i hc
    exact (Stays.fail e).congr fun _ _ _ _ _ => iff_of_false id fun h => h.1 hc
  · rename_i hc
    exact h.congr fun _ _ _ _ _ => (and_iff_right hc).symm

/-- Before one that reads nothing any more. -/
theorem ends {g : α → Nat → β} (h : Overruns p C)
    (hf : ∀ a file pos, f a file pos = .ok (g a pos, pos)) :
    Overruns (p >>= f) fun pos b bs k => ∃ a, C pos a bs k ∧ b = g a (pos + bs.length + k) := by
  refine ⟨fun {file pos b k} hmax hpos hk => ?_⟩
  have hend : pos + (file.drop pos).length + k = file.length + k := by
    rw [List.length_drop]
    omega
  rw [hend]
  constructor
  · intro hread
    obtain ⟨a, mid, h₁, h₂⟩ := bind_ok.mp hread
    rw [hf] at h₂
    cases h₂
    exact ⟨a, (h.iff hmax hpos hk).mp h₁, rfl⟩
  · rintro ⟨a, ha, rfl⟩
    exact bind_ok.mpr ⟨a, _, (h.iff hmax hpos hk).mpr ha, hf a file _⟩

theorem sized {p : Nat → Reader ε α} {C : Nat → Nat → α → List UInt8 → Nat → Prop}
    (h : ∀ n, Overruns (p n) (C n))
    (hdeep : ∀ {n m pos a bs k}, C n pos a bs k → bs.length ≤ m → C m pos a bs k) :
    Overruns (Reader.sized p) fun pos a bs k => ∃ n, C n pos a bs k := by
  refine ⟨fun {file pos a k} hmax hpos hk => ?_⟩
  refine ((h file.length).iff hmax hpos hk).trans ⟨fun hC => ⟨_, hC⟩, ?_⟩
  rintro ⟨n, hC⟩
  apply hdeep hC
  rw [List.length_drop]
  omega

/-- A loop whose turns halt past the end leaves the file in its last turn. -/
theorem iterate {ok : ι → Prop} {spell : ι → List UInt8} {store : Nat → ι → σ → σ}
    {step : σ → Reader ε σ} {C : σ → Nat → σ → List UInt8 → Nat → Prop}
    (h : ∀ s, Accepts (step s) fun pos s' bs => ∃ i, ok i ∧ bs = spell i ∧ s' = store pos i s)
    (hout : ∀ s, Overruns (step s) (C s)) (hhalt : ∀ s, Halts (step s)) (n : Nat) (s : σ) :
    Overruns (Reader.iterate step n s) fun pos s' bs k =>
      ∃ (is : List ι) (last : List UInt8), is.length + 1 = n ∧ (∀ i ∈ is, ok i) ∧
        bs = is.flatMap spell ++ last ∧
          C (storeAll spell store pos is s) (pos + (is.flatMap spell).length) s' last k := by
  induction n generalizing s with
  | zero =>
    refine (Stays.pure s).congr fun pos s' bs k _ => iff_of_false id ?_
    rintro ⟨is, _, hlen, _⟩
    omega
  | succ n ih =>
    refine ⟨fun {file pos s' k} hmax hpos hk => ?_⟩
    have hlen : file.length < maxOffset := by omega
    constructor
    · intro hread
      obtain ⟨t, mid, h₁, h₂⟩ := bind_ok.mp hread
      by_cases hmid : mid ≤ file.length
      · obtain ⟨_, ⟨i, hi, rfl, rfl⟩, ⟨ys, hys⟩, rfl, _⟩ := ((h s).iff hlen).mp ⟨h₁, hmid⟩
        obtain ⟨is, last, rfl, his, hdrop, hC⟩ := ((ih _).iff hmax hmid hk).mp h₂
        rw [← List.drop_drop, ← hys, List.drop_left] at hdrop
        refine ⟨i :: is, last, rfl, List.forall_mem_cons.mpr ⟨hi, his⟩, ?_, ?_⟩
        · rw [← hys, hdrop, List.flatMap_cons, List.append_assoc]
        · rwa [List.flatMap_cons, List.length_append, ← Nat.add_assoc]
      · cases n with
        | succ n => exact ((Halts.iterate hhalt n t).ne (not_le.mp hmid) h₂).elim
        | zero =>
          cases h₂
          refine ⟨[], _, rfl, by simp, rfl, ?_⟩
          exact ((hout s).iff hmax hpos hk).mp h₁
    · rintro ⟨is, last, hn, his, hbs, hC⟩
      cases is with
      | nil =>
        obtain rfl : n = 0 := by simpa using hn.symm
        refine bind_ok.mpr ⟨s', _, ((hout s).iff hmax hpos hk).mpr ?_, rfl⟩
        rw [hbs]
        exact hC
      | cons i is =>
        obtain ⟨hi, his⟩ := List.forall_mem_cons.mp his
        rw [List.flatMap_cons, List.append_assoc] at hbs
        have hsum : (spell i).length + (is.flatMap spell ++ last).length = file.length - pos := by
          rw [← List.length_append, ← hbs, List.length_drop]
        have hmid : pos + (spell i).length ≤ file.length := by omega
        obtain ⟨h₁, _⟩ := ((h s).iff hlen).mpr ⟨_, ⟨i, hi, rfl, rfl⟩, ⟨_, hbs.symm⟩, rfl, hmid⟩
        refine bind_ok.mpr ⟨_, _, h₁, ((ih _).iff hmax hmid hk).mpr ⟨is, last, ?_, his, ?_, ?_⟩⟩
        · exact Nat.succ.inj hn
        · rw [← List.drop_drop, hbs, List.drop_left]
        · rwa [List.flatMap_cons, List.length_append, ← Nat.add_assoc] at hC

end Overruns

theorem Stays.mapError (e : ε) (h : Stays p) : Stays (Reader.mapError e p) :=
  Overruns.mapError e h

/-- Seeks one after the other are one seek. -/
theorem iterate_skip (hmax : pos + n * w < maxOffset) :
    Reader.iterate (fun _ => Reader.skip w e) n () file pos = .ok ((), pos + n * w) := by
  induction n generalizing pos with
  | zero => rw [Nat.zero_mul]; rfl
  | succ n ih =>
    rw [Nat.succ_mul, Nat.add_comm (n * w), ← Nat.add_assoc] at hmax ⊢
    exact bind_ok.mpr ⟨(), pos + w, skip_ok.mpr ⟨by omega, rfl⟩, ih hmax⟩

theorem iterate_skip_ok (h : Reader.iterate (fun _ => Reader.skip w e) n () file pos =
    .ok ((), pos')) : pos' = pos + n * w := by
  induction n generalizing pos with
  | zero =>
    cases h
    omega
  | succ n ih =>
    obtain ⟨_, mid, h₁, h₂⟩ := bind_ok.mp h
    obtain ⟨_, rfl⟩ := skip_ok.mp h₁
    rw [ih h₂, Nat.succ_mul]
    omega

theorem Overruns.skips (w n : Nat) (e : ε) :
    Overruns (Reader.iterate (fun _ => Reader.skip w e) n ()) fun _ _ bs k =>
      bs.length + k = n * w := by
  refine ⟨fun {file pos a k} hmax hpos hk => ?_⟩
  rw [List.length_drop]
  constructor
  · intro h
    have hend := iterate_skip_ok h
    omega
  · intro h
    have hend : file.length + k = pos + n * w := by omega
    rw [hend] at hmax ⊢
    exact iterate_skip hmax

end FileReader
