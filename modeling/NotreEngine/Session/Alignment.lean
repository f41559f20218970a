import NotreEngine.Session.Positions

/-!
# The lane after a prefill

`session_prefill` terminates, and what it leaves where it succeeds: the prompt in the lane and in
the ledger, the longest common prefix of the old ledger reused.
-/
namespace NotreEngine.Session.Positional

variable {L : Type}

section Fuel

variable {m : Llama L} {mem : Memory L} {seq : Nat} {tokens prompt : List Token}
  {slot : SessionSlot} {fuel fuel' : Nat}

theorem prefillLoop_mono {pos0 off : Nat} {r : Memory L × Bool} (hle : fuel ≤ fuel')
    (h : prefillLoop m seq pos0 tokens fuel off mem = some r) :
    prefillLoop m seq pos0 tokens fuel' off mem = some r := by
  induction fuel generalizing fuel' off mem with
  | zero => cases h
  | succ fuel ih =>
    obtain ⟨fuel', rfl⟩ := Nat.exists_eq_add_one.mpr (show 0 < fuel' by omega)
    rw [prefillLoop] at h ⊢
    split at h
    · rename_i hoff
      rw [if_pos hoff]
      generalize decode m mem seq (chunk m pos0 tokens off) = d at h ⊢
      obtain ⟨mem', ok⟩ := d
      cases ok with
      | true => exact ih (by omega) h
      | false => exact h
    · rename_i hoff
      rwa [if_neg hoff]

theorem prefillTail_mono {lcp : Nat} {r : Prefilled L} (hle : fuel ≤ fuel')
    (h : prefillTail m mem fuel seq lcp slot prompt = some r) :
    prefillTail m mem fuel' seq lcp slot prompt = some r := by
  rw [prefillTail] at h ⊢
  split at h
  · rename_i hlt
    obtain ⟨d, hd, hr⟩ := Option.map_eq_some_iff.mp h
    have hd' : prefillChunked m mem fuel' seq (prompt.drop lcp) = some d := prefillLoop_mono hle hd
    rw [if_pos hlt, hd', Option.map_some, hr]
  · rename_i hlt
    rwa [if_neg hlt]

/-- More fuel changes nothing once there is an outcome. -/
theorem sessionPrefill_mono {r : Prefilled L} (hle : fuel ≤ fuel')
    (h : sessionPrefill m fuel mem slot prompt = some r) :
    sessionPrefill m fuel' mem slot prompt = some r := by
  induction fuel generalizing fuel' mem slot with
  | zero => cases h
  | succ fuel ih =>
    obtain ⟨fuel', rfl⟩ := Nat.exists_eq_add_one.mpr (show 0 < fuel' by omega)
    by_cases hne : prompt = []
    · rw [sessionPrefill, if_pos hne] at h ⊢
      exact h
    cases hseq : slot.seqId with
    | none =>
      simp only [sessionPrefill, if_neg hne, hseq] at h ⊢
      exact h
    | some seq =>
      have hle' : fuel ≤ fuel' := by omega
      rw [sessionPrefill_succ hne hseq] at h ⊢
      split at h
      · rename_i hkv
        rw [if_pos hkv]
        exact prefillTail_mono hle' h
      rename_i hkv
      rw [if_neg hkv]
      split at h
      · rename_i hledger
        rw [if_pos hledger]
        exact ih hle' h
      rename_i hledger
      rw [if_neg hledger]
      split at h
      · rename_i hlcp
        rw [if_pos hlcp]
        generalize seqRm m mem seq (tokenCommonPrefix slot.kvTokens prompt) = d at h ⊢
        obtain ⟨mem', ok⟩ := d
        cases ok with
        | true => exact prefillTail_mono hle' h
        | false => exact ih hle' h
      · rename_i hlcp
        rw [if_neg hlcp]
        exact prefillTail_mono hle' h

end Fuel

section Alignment

variable {m : Llama L} {mem : Memory L} {ctx : Context L} {seq lcp : Nat} {prompt : List Token}
  {slot : SessionSlot}

/-- The lengths of the common prefixes of two token lists. -/
def commonPrefixLengths (as bs : List Token) : Set Nat :=
  {n | ∃ p, p <+: as ∧ p <+: bs ∧ p.length = n}

theorem tokenCommonPrefix_isGreatest (as bs : List Token) :
    IsGreatest (commonPrefixLengths as bs) (tokenCommonPrefix as bs) := by
  constructor
  · refine ⟨as.take (tokenCommonPrefix as bs), List.take_prefix _ _, ?_, ?_⟩
    · rw [take_tokenCommonPrefix]
      exact List.take_prefix _ _
    · exact List.length_take_of_le tokenCommonPrefix_le.1
  · rintro _ ⟨p, ha, hb, rfl⟩
    induction p generalizing as bs with
    | nil => exact Nat.zero_le _
    | cons t p ih =>
      obtain ⟨as', rfl⟩ := ha
      obtain ⟨bs', rfl⟩ := hb
      have := ih _ _ (List.prefix_append p as') (List.prefix_append p bs')
      simpa [tokenCommonPrefix] using this

/-- The lane holds the prompt, the ledger says so, and `reused` of its tokens were there before. -/
structure Aligned (r : Prefilled L) (seq : Nat) (prompt : List Token) (reused : Nat) : Prop where
  cells : r.mem.cells seq = spellFrom 0 prompt
  ledger : r.slot.kvTokens = prompt
  stats : ∃ s, r.stats = some s ∧ s.reusedTokens = reused ∧
    s.reusedTokens + s.prefilledTokens = prompt.length

/-- The lane has to be emptied first: it and the ledger differ, or it refuses to be trimmed. -/
def MustReset (m : Llama L) (mem : Memory L) (seq : Nat) (slot : SessionSlot)
    (prompt : List Token) : Prop :=
  slot.kvTokens.length ≠ kvSeqLen mem seq ∨
    0 < tokenCommonPrefix slot.kvTokens prompt ∧
      tokenCommonPrefix slot.kvTokens prompt < slot.kvTokens.length ∧
      m.succeeds mem.calls = false

theorem aligned_of_tail {r : Prefilled L} {slot : SessionSlot}
    (hr : Reflects r (Session.prefillTail m ctx seq lcp slot prompt) seq)
    (hlane : ctx.lanes seq = prompt.take lcp) (hle : lcp ≤ prompt.length) (hok : r.ok = true) :
    Aligned r seq prompt lcp := by
  rcases prefillTail_cases m ctx seq lcp slot prompt with
    ⟨ctx', htail, hlanes, -, -⟩ | ⟨ctx', n, htail, -, -⟩
  · rw [htail] at hr
    refine ⟨?_, by rw [hr.slot], ⟨lcp, prompt.length - lcp⟩, hr.stats, rfl, ?_⟩
    · rw [hr.mirrors.cells, hlanes, Function.update_self, hlane, List.take_append_drop]
    · exact Nat.add_sub_cancel' hle
  · rw [htail] at hr
    have := hr.ok
    rw [hok] at this
    cases this

/-- On a lane that spells its tokens, whatever the ledger says. -/
theorem sessionPrefill_aligned_of_mirrors {fuel : Nat} (h : Mirrors mem ctx seq)
    (hsame : slot.kvTokens.length = kvSeqLen mem seq → ctx.lanes seq = slot.kvTokens)
    (hne : prompt ≠ []) (hseq : slot.seqId = some seq) (hfuel : prompt.length + 3 ≤ fuel) :
    ∃ r, sessionPrefill m fuel mem slot prompt = some r ∧ (r.ok = true →
      (kvSeqLen mem seq = 0 ∨ MustReset m mem seq slot prompt) ∧ Aligned r seq prompt 0 ∨
      ¬(kvSeqLen mem seq = 0 ∨ MustReset m mem seq slot prompt) ∧
        Aligned r seq prompt (tokenCommonPrefix slot.kvTokens prompt)) := by
  obtain ⟨r, hrun, hr⟩ := sessionPrefill_mirrors (m := m) h hne hseq hfuel
  refine ⟨r, hrun, fun hok => ?_⟩
  obtain ⟨ctx', lcp, ledger, hentry, htail⟩ := sessionPrefill_entry m ctx hne hseq
  rw [htail] at hr
  have hlen := h.kvSeqLen
  cases hentry with
  | empty hlane =>
    left
    refine ⟨Or.inl ?_, aligned_of_tail hr hlane (Nat.zero_le _) hok⟩
    rw [hlen, kvSeqLen_eq_zero, hlane]
  | reset hlane hwhy hlanes =>
    have hal := aligned_of_tail hr (by simp [hlanes]) (Nat.zero_le _) hok
    rcases hwhy with hdesync | ⟨hlt, hfail⟩
    · rw [← hlen] at hdesync
      exact Or.inl ⟨Or.inr (Or.inl hdesync), hal⟩
    · rcases Nat.eq_zero_or_pos (tokenCommonPrefix slot.kvTokens prompt) with hzero | hpos
      · -- cut to nothing: this trim is a full clear here, and only the other model may refuse it
        by_cases hcond : kvSeqLen mem seq = 0 ∨ MustReset m mem seq slot prompt
        · exact Or.inl ⟨hcond, hal⟩
        · rw [hzero]
          exact Or.inr ⟨hcond, hal⟩
      · rw [← h.calls] at hfail
        exact Or.inl ⟨Or.inr (Or.inr ⟨hpos, hlt, hfail⟩), hal⟩
  | reuse hlane hledger hkept hlanes =>
    right
    rw [← hlen] at hledger
    have hleading : ctx'.lanes seq = prompt.take (tokenCommonPrefix slot.kvTokens prompt) := by
      rw [hlanes, Function.update_self, hsame hledger, take_tokenCommonPrefix]
    refine ⟨?_, aligned_of_tail hr hleading tokenCommonPrefix_le.2 hok⟩
    rintro (hzero | hdesync | ⟨-, hlt, hfail⟩)
    · rw [hlen, kvSeqLen_eq_zero] at hzero
      exact hlane hzero
    · exact hdesync hledger
    · rw [h.calls, hkept hlt] at hfail
      cases hfail

/-- A ledger of another length than the lane: the lane is cleared first, whatever it holds. -/
theorem sessionPrefill_aligned_of_desync {fuel : Nat} (hkv : kvSeqLen mem seq ≠ 0)
    (hdesync : slot.kvTokens.length ≠ kvSeqLen mem seq) (hne : prompt ≠ [])
    (hseq : slot.seqId = some seq) (hfuel : prompt.length + 3 ≤ fuel) :
    ∃ r, sessionPrefill m fuel mem slot prompt = some r ∧
      (r.ok = true → Aligned r seq prompt 0) := by
  obtain ⟨fuel, rfl⟩ : ∃ k, fuel = k + 1 + 1 := ⟨fuel - 2, by omega⟩
  let ctx : Context L := { logits := mem.logits, calls := mem.calls }
  rw [sessionPrefill_succ hne hseq, if_neg hkv, if_pos hdesync, sessionPrefill_reset hne hseq]
  have hclear : Mirrors (sessionClearSeq mem seq) (Session.sessionClearSeq ctx seq) seq :=
    mirrors_clear rfl rfl
  obtain ⟨r, hrun, hr⟩ := @prefillTail_mirrors L m _ _ seq prompt { slot with kvTokens := [] }
    fuel 0 hclear (by omega)
  refine ⟨r, hrun, aligned_of_tail hr ?_ (Nat.zero_le _)⟩
  simp [Session.sessionClearSeq]

/-- `session_prefill` terminates, and where it succeeds the lane and the ledger are the prompt;
what was reused is the longest common prefix unless the lane was empty or had to be reset. -/
theorem sessionPrefill_aligns (m : Llama L) (mem : Memory L) (slot : SessionSlot)
    (prompt : List Token) (hne : prompt ≠ [])
    (hsame : ∀ seq, slot.seqId = some seq → slot.kvTokens.length = kvSeqLen mem seq →
      mem.cells seq = spellFrom 0 slot.kvTokens) :
    ∃ r, (∀ fuel, prompt.length + 3 ≤ fuel → sessionPrefill m fuel mem slot prompt = some r) ∧
      (r.ok = true → ∃ seq reused, slot.seqId = some seq ∧ Aligned r seq prompt reused ∧
        (kvSeqLen mem seq = 0 ∨ MustReset m mem seq slot prompt → reused = 0) ∧
        (¬(kvSeqLen mem seq = 0 ∨ MustReset m mem seq slot prompt) →
          IsGreatest (commonPrefixLengths slot.kvTokens prompt) reused)) := by
  cases hseq : slot.seqId with
  | none =>
    refine ⟨⟨mem, slot, false, none⟩, ?_, fun h => by cases h⟩
    intro fuel hfuel
    obtain ⟨fuel, rfl⟩ := Nat.exists_eq_add_one.mpr (show 0 < fuel by omega)
    simp [sessionPrefill, hne, hseq]
  | some seq =>
    by_cases hdesync : kvSeqLen mem seq ≠ 0 ∧ slot.kvTokens.length ≠ kvSeqLen mem seq
    · obtain ⟨r, hrun, hr⟩ := sessionPrefill_aligned_of_desync (m := m) hdesync.1 hdesync.2 hne
        hseq le_rfl
      refine ⟨r, fun fuel hfuel => sessionPrefill_mono hfuel hrun, fun hok => ?_⟩
      refine ⟨seq, 0, rfl, hr hok, fun _ => rfl, fun h => ?_⟩
      exact (h (Or.inr (Or.inl hdesync.2))).elim
    · let lane := if kvSeqLen mem seq = 0 then [] else slot.kvTokens
      let ctx : Context L :=
        { lanes := fun _ => lane, logits := mem.logits, calls := mem.calls }
      have hlane : mem.cells seq = spellFrom 0 lane ∧
          (slot.kvTokens.length = kvSeqLen mem seq → lane = slot.kvTokens) := by
        by_cases hkv : kvSeqLen mem seq = 0
        · have hcells : mem.cells seq = [] := posEnd_eq_zero.mp hkv
          simp only [lane, if_pos hkv, hcells]
          refine ⟨rfl, fun h => ?_⟩
          rw [hkv, List.length_eq_zero_iff] at h
          exact h.symm
        · simp only [lane, if_neg hkv, implies_true, and_true]
          apply hsame seq hseq
          by_contra hne'
          exact hdesync ⟨hkv, hne'⟩
      have hctx : Mirrors mem ctx seq := ⟨hlane.1, rfl, rfl⟩
      obtain ⟨r, hrun, hr⟩ := sessionPrefill_aligned_of_mirrors (m := m) hctx hlane.2 hne hseq
        le_rfl
      refine ⟨r, fun fuel hfuel => sessionPrefill_mono hfuel hrun, fun hok => ?_⟩
      rcases hr hok with ⟨hcond, hal⟩ | ⟨hcond, hal⟩
      · exact ⟨seq, 0, rfl, hal, fun _ => rfl, fun h => (h hcond).elim⟩
      · exact ⟨seq, _, rfl, hal, fun h => (hcond h).elim,
          fun _ => tokenCommonPrefix_isGreatest _ _⟩

/-- A two-token prefix is kept and the rest decoded, two tokens at most in each batch. -/
theorem sessionPrefill_aligns_edit :
    let m : Llama Nat := ⟨2, by decide, List.length, fun _ => true⟩
    let mem : Memory Nat := { cells := fun _ => [⟨7, 0⟩, ⟨8, 1⟩, ⟨9, 2⟩] }
    let slot : SessionSlot := { id := [], owner := [], kvTokens := [7, 8, 9], seqId := some 0 }
    ∃ r, (∀ fuel, 8 ≤ fuel → sessionPrefill m fuel mem slot [7, 8, 5, 5, 6] = some r) ∧
      (r.ok = true → ∃ seq reused, slot.seqId = some seq ∧ Aligned r seq [7, 8, 5, 5, 6] reused ∧
        (kvSeqLen mem seq = 0 ∨ MustReset m mem seq slot [7, 8, 5, 5, 6] → reused = 0) ∧
        (¬(kvSeqLen mem seq = 0 ∨ MustReset m mem seq slot [7, 8, 5, 5, 6]) →
          IsGreatest (commonPrefixLengths slot.kvTokens [7, 8, 5, 5, 6]) reused)) :=
  sessionPrefill_aligns _ _ _ [7, 8, 5, 5, 6] (by simp) (fun _ _ _ => rfl)

end Alignment

end NotreEngine.Session.Positional
