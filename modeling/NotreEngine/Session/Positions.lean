import NotreEngine.Session.Prefill

/-!
# Prefill over explicit positions

`session_prefill` over a memory of cells at explicit positions, as llama.cpp keeps them: batches
carry the position of each row, a trim drops the cells from a position on, and only a partial one
may be refused. On a lane that spells a token list it does what the token list model does.
-/
namespace NotreEngine.Session.Positional

structure Cell where
  token : Token
  pos : Nat
  deriving DecidableEq

/-- One row of a `llama_batch`. -/
structure Row where
  token : Token
  pos : Nat
  logits : Bool
  deriving DecidableEq

/-- `llama_memory` and the last row of logits; fallible calls are numbered in the order made. -/
structure Memory (L : Type) where
  cells : Nat → List Cell := fun _ => []
  logits : Option L := none
  calls : Nat := 0

variable {L : Type} (m : Llama L) (mem : Memory L)

/-- The positions of a list of cells end here: `llama_memory_seq_pos_max` plus one, or 0. -/
def posEnd : List Cell → Nat
  | [] => 0
  | c :: cs => max (c.pos + 1) (posEnd cs)

def kvSeqLen (seq : Nat) : Nat := posEnd (mem.cells seq)

def batchAdd (seq : Nat) (mem : Memory L) (row : Row) : Memory L :=
  let cells := mem.cells seq ++ [⟨row.token, row.pos⟩]
  { mem with
    cells := Function.update mem.cells seq cells
    logits := if row.logits then some (m.logits (cells.map Cell.token)) else mem.logits }

/-- `llama_decode` of a batch: each row adds a cell, a flagged one also yields its logits. -/
def decode (seq : Nat) (batch : List Row) : Memory L × Bool :=
  if m.succeeds mem.calls then
    ({ batch.foldl (batchAdd m seq) mem with calls := mem.calls + 1 }, true)
  else ({ mem with calls := mem.calls + 1 }, false)

def dropFrom (seq p0 : Nat) : Memory L :=
  { mem with
    cells := Function.update mem.cells seq ((mem.cells seq).filter fun c => c.pos < p0) }

/-- `llama_memory_seq_rm` from `p0` to the end; removing everything is never refused. -/
def seqRm (seq p0 : Nat) : Memory L × Bool :=
  if p0 = 0 ∨ m.succeeds mem.calls then
    ({ dropFrom mem seq p0 with calls := mem.calls + 1 }, true)
  else ({ mem with calls := mem.calls + 1 }, false)

def sessionClearSeq (seq : Nat) : Memory L := dropFrom mem seq 0

def sessionResetKv (slot : SessionSlot) : Memory L × SessionSlot :=
  let mem :=
    match slot.seqId with
    | some seq => sessionClearSeq mem seq
    | none => mem
  (mem, { slot with kvTokens := [] })

/-- The batch of one round: the rows from `off` on, at most `n_batch` of them. -/
def chunk (pos0 : Nat) (tokens : List Token) (off : Nat) : List Row :=
  ((tokens.drop off).take m.nBatch).mapIdx fun j id =>
    ⟨id, pos0 + off + j, off + j == tokens.length - 1⟩

/-- The loop of `prefill_chunked`; `none` when the fuel runs out. -/
def prefillLoop (seq pos0 : Nat) (tokens : List Token) :
    Nat → Nat → Memory L → Option (Memory L × Bool)
  | 0, _, _ => none
  | fuel + 1, off, mem =>
    if off < tokens.length then
      match decode m mem seq (chunk m pos0 tokens off) with
      | (mem, true) => prefillLoop seq pos0 tokens fuel (off + m.nBatch) mem
      | (mem, false) => some (mem, false)
    else some (mem, true)

def prefillChunked (fuel seq : Nat) (tokens : List Token) : Option (Memory L × Bool) :=
  prefillLoop m seq (kvSeqLen mem seq) tokens fuel 0 mem

/-- What `session_prefill` leaves; the stats are only written on success. -/
structure Prefilled (L : Type) where
  mem : Memory L
  slot : SessionSlot
  ok : Bool
  stats : Option SessionPrefillStats := none

/-- The branch of `session_prefill` for an empty lane. -/
def prefillEmpty (fuel seq : Nat) (slot : SessionSlot) (prompt : List Token) :
    Option (Prefilled L) :=
  (prefillChunked m mem fuel seq prompt).map fun r =>
    if r.2 then
      { mem := r.1, slot := { slot with kvTokens := prompt }, ok := true,
        stats := some ⟨0, prompt.length⟩ }
    else { mem := r.1, slot := slot, ok := false }

/-- The tail of `session_prefill` once the lane holds the common prefix. -/
def prefillTail (fuel seq lcp : Nat) (slot : SessionSlot) (prompt : List Token) :
    Option (Prefilled L) :=
  if lcp < prompt.length then
    (prefillChunked m mem fuel seq (prompt.drop lcp)).map fun r =>
      if r.2 then
        { mem := r.1, slot := { slot with kvTokens := prompt }, ok := true,
          stats := some ⟨lcp, prompt.length - lcp⟩ }
      else { mem := r.1, slot := slot, ok := false }
  else
    some { mem := mem, slot := { slot with kvTokens := prompt }, ok := true,
           stats := some ⟨lcp, 0⟩ }

/-- The fuel bounds both the recursion and the rounds of each `prefill_chunked`. -/
def sessionPrefill : Nat → Memory L → SessionSlot → List Token → Option (Prefilled L)
  | 0, _, _, _ => none
  | fuel + 1, mem, slot, prompt =>
    if prompt = [] then some { mem := mem, slot := slot, ok := true, stats := some {} }
    else
      match slot.seqId with
      | none => some { mem := mem, slot := slot, ok := false }
      | some seq =>
        if kvSeqLen mem seq = 0 then prefillEmpty m mem fuel seq slot prompt
        else if slot.kvTokens.length ≠ kvSeqLen mem seq then
          let r := sessionResetKv mem slot
          sessionPrefill fuel r.1 r.2 prompt
        else
          let lcp := tokenCommonPrefix slot.kvTokens prompt
          if lcp < slot.kvTokens.length then
            match seqRm m mem seq lcp with
            | (mem, true) =>
              prefillTail m mem fuel seq lcp { slot with kvTokens := slot.kvTokens.take lcp }
                prompt
            | (mem, false) =>
              let r := sessionResetKv mem slot
              sessionPrefill fuel r.1 r.2 prompt
          else prefillTail m mem fuel seq lcp slot prompt

section Spelling

variable {p : Nat} {ts us : List Token}

/-- The cells of a token list whose first position is `p`. -/
def spellFrom (p : Nat) : List Token → List Cell
  | [] => []
  | t :: ts => ⟨t, p⟩ :: spellFrom (p + 1) ts

@[simp] theorem map_token_spellFrom : (spellFrom p ts).map Cell.token = ts := by
  induction ts generalizing p with
  | nil => rfl
  | cons t ts ih => simp [spellFrom, ih]

theorem spellFrom_append :
    spellFrom p (ts ++ us) = spellFrom p ts ++ spellFrom (p + ts.length) us := by
  induction ts generalizing p with
  | nil => rfl
  | cons t ts ih =>
    have hp : p + 1 + ts.length = p + (t :: ts).length := by
      rw [List.length_cons]
      omega
    simp [spellFrom, ih, hp]

theorem posEnd_spellFrom (hne : ts ≠ []) : posEnd (spellFrom p ts) = p + ts.length := by
  induction ts generalizing p with
  | nil => exact (hne rfl).elim
  | cons t ts ih =>
    by_cases hts : ts = []
    · simp [hts, spellFrom, posEnd]
    · simp only [spellFrom, posEnd, ih hts, List.length_cons]
      omega

theorem posEnd_spell : posEnd (spellFrom 0 ts) = ts.length := by
  by_cases hts : ts = []
  · simp [hts, spellFrom, posEnd]
  · simp [posEnd_spellFrom hts]

theorem posEnd_eq_zero {cs : List Cell} : posEnd cs = 0 ↔ cs = [] := by
  cases cs with
  | nil => simp [posEnd]
  | cons c cs =>
    have hpos : 0 < posEnd (c :: cs) := by
      rw [posEnd]
      omega
    simp only [reduceCtorEq, iff_false]
    omega

/-- What a trim leaves of a spelled list is the spelling of what is kept of it. -/
theorem filter_spellFrom {k : Nat} :
    (spellFrom p ts).filter (fun c => c.pos < p + k) = spellFrom p (ts.take k) := by
  induction ts generalizing p k with
  | nil => simp [spellFrom]
  | cons t ts ih =>
    cases k with
    | zero =>
      have htail := @ih (p + 1) 0
      simp only [spellFrom, List.take_zero, List.filter_eq_nil_iff, List.mem_cons, Nat.add_zero]
        at htail ⊢
      intro c hc
      rcases hc with rfl | hc
      · simp
      · have := htail c hc
        simp only [decide_eq_true_eq] at this ⊢
        omega
    | succ k =>
      have hshift : p + 1 + k = p + (k + 1) := by omega
      have htail := @ih (p + 1) k
      rw [hshift] at htail
      simp [spellFrom, htail]

end Spelling

section Mirroring

variable {m : Llama L} {mem : Memory L} {ctx : Context L} {seq : Nat}
  {tokens prompt : List Token} {slot : SessionSlot}

/-- The memory holds the tokens of the lane at the positions 0, 1, 2 and so on. -/
structure Mirrors (mem : Memory L) (ctx : Context L) (seq : Nat) : Prop where
  cells : mem.cells seq = spellFrom 0 (ctx.lanes seq)
  logits : mem.logits = ctx.logits
  calls : mem.calls = ctx.calls

theorem Mirrors.kvSeqLen (h : Mirrors mem ctx seq) :
    kvSeqLen mem seq = Session.kvSeqLen ctx seq := by
  rw [Positional.kvSeqLen, h.cells, posEnd_spell, Session.kvSeqLen]

theorem foldl_batchAdd {p : Nat} {ts : List Token} {flag : Bool} {f : Nat → Token → Row}
    (htok : ∀ i t, (f i t).token = t) (hpos : ∀ i t, (f i t).pos = p + i)
    (hlog : ∀ i < ts.length, ∀ t, (f i t).logits = (flag && (i + 1 == ts.length))) :
    (ts.mapIdx f).foldl (batchAdd m seq) mem =
      { mem with
        cells := Function.update mem.cells seq (mem.cells seq ++ spellFrom p ts)
        logits := if flag = true ∧ ts ≠ [] then
            some (m.logits ((mem.cells seq).map Cell.token ++ ts)) else mem.logits } := by
  induction ts generalizing p f mem with
  | nil => simp [spellFrom]
  | cons t ts ih =>
    have htail : ∀ i < ts.length, ∀ u, (f (i + 1) u).logits = (flag && (i + 1 == ts.length)) := by
      intro i hi u
      rw [hlog (i + 1) (by simpa using hi)]
      simp
    have hpos' : ∀ i u, (f (i + 1) u).pos = p + 1 + i := by
      intro i u
      rw [hpos]
      omega
    rw [List.mapIdx_cons, List.foldl_cons, ih (fun i => htok (i + 1)) hpos' htail]
    have hfirst : (f 0 t).logits = (flag && ts.isEmpty) := by
      rw [hlog 0 (by simp)]
      cases ts <;> simp
    by_cases hts : ts = []
    · subst ts
      simp [batchAdd, htok, hpos, hfirst, spellFrom]
    · simp [batchAdd, htok, hpos, hfirst, spellFrom, hts]

/-- A round of the chunked prefill decodes at the positions where the lane ends. -/
theorem decode_chunk {pos0 off : Nat} (h : Mirrors mem ctx seq)
    (hpos : (ctx.lanes seq).length = pos0 + off) (hoff : off < tokens.length) :
    (decode m mem seq (chunk m pos0 tokens off)).2 =
        (Session.decode m ctx seq ((tokens.drop off).take m.nBatch)
          ((tokens.drop off).drop m.nBatch).isEmpty).2 ∧
      Mirrors (decode m mem seq (chunk m pos0 tokens off)).1
        (Session.decode m ctx seq ((tokens.drop off).take m.nBatch)
          ((tokens.drop off).drop m.nBatch).isEmpty).1 seq := by
  have hb := m.nBatch_pos
  cases hs : m.succeeds ctx.calls with
  | false =>
    rw [decode_failed hs, decode, h.calls, if_neg (by simp [hs])]
    exact ⟨rfl, h.cells, h.logits, rfl⟩
  | true =>
    have hlen : ((tokens.drop off).take m.nBatch).length =
        min m.nBatch (tokens.length - off) := by simp
    have hne : (tokens.drop off).take m.nBatch ≠ [] := by
      rw [← List.length_pos_iff]
      omega
    have hlast : ∀ i < ((tokens.drop off).take m.nBatch).length, Token →
        (off + i == tokens.length - 1) = (((tokens.drop off).drop m.nBatch).isEmpty &&
          (i + 1 == ((tokens.drop off).take m.nBatch).length)) := by
      intro i hi _
      rw [hlen] at hi ⊢
      rw [Bool.eq_iff_iff]
      simp only [beq_iff_eq, Bool.and_eq_true, List.isEmpty_iff, List.drop_eq_nil_iff,
        List.length_drop]
      omega
    have hfold := @foldl_batchAdd L m mem seq (pos0 + off) ((tokens.drop off).take m.nBatch)
      ((tokens.drop off).drop m.nBatch).isEmpty
      (fun j id => ⟨id, pos0 + off + j, off + j == tokens.length - 1⟩)
      (fun _ _ => rfl) (fun _ _ => rfl) hlast
    rw [decode_ok hs, decode, h.calls, if_pos hs, chunk, hfold]
    refine ⟨rfl, ?_, ?_, rfl⟩
    · simp [h.cells, spellFrom_append, hpos]
    · simp only [h.cells, map_token_spellFrom, h.logits]
      simp [hne]

theorem prefillLoop_mirrors {pos0 off n fuel : Nat} (h : Mirrors mem ctx seq)
    (hpos : off ≤ tokens.length → (ctx.lanes seq).length = pos0 + off)
    (hn : tokens.length ≤ off + n) (hfuel : n < fuel) :
    ∃ mem', prefillLoop m seq pos0 tokens fuel off mem =
        some (mem', (Session.prefillLoop m seq n ctx (tokens.drop off)).2) ∧
      Mirrors mem' (Session.prefillLoop m seq n ctx (tokens.drop off)).1 seq := by
  induction n generalizing off mem ctx fuel with
  | zero =>
    obtain ⟨fuel, rfl⟩ := Nat.exists_eq_add_one.mpr hfuel
    refine ⟨mem, ?_, h⟩
    rw [prefillLoop, if_neg (by omega), Session.prefillLoop]
  | succ n ih =>
    obtain ⟨fuel, rfl⟩ := Nat.exists_eq_add_one.mpr (Nat.zero_lt_of_lt hfuel)
    by_cases hoff : off < tokens.length
    · have hne : tokens.drop off ≠ [] := by simpa using hoff
      have hb := m.nBatch_pos
      obtain ⟨hok, hround⟩ := decode_chunk (m := m) h (hpos hoff.le) hoff
      rw [prefillLoop, if_pos hoff, Session.prefillLoop, if_neg hne]
      cases hs : m.succeeds ctx.calls with
      | false =>
        rw [decode_failed hs] at hok hround
        simp only [decode_failed hs]
        generalize decode m mem seq (chunk m pos0 tokens off) = d at hok hround
        obtain ⟨mem', ok⟩ := d
        cases hok
        exact ⟨mem', rfl, hround⟩
      | true =>
        rw [decode_ok hs] at hok hround
        simp only [decode_ok hs, if_true, List.drop_drop]
        generalize decode m mem seq (chunk m pos0 tokens off) = d at hok hround
        obtain ⟨mem', ok⟩ := d
        cases hok
        rw [List.drop_drop] at hround
        apply ih hround
        · intro hle
          have htake : ((tokens.drop off).take m.nBatch).length = m.nBatch := by
            simp
            omega
          have := hpos hoff.le
          simp only [Function.update_self, List.length_append, htake]
          omega
        · omega
        · omega
    · refine ⟨mem, ?_, ?_⟩
      · rw [prefillLoop, if_neg hoff, Session.prefillLoop, if_pos (by simpa using hoff)]
      · rwa [Session.prefillLoop, if_pos (by simpa using hoff)]

theorem prefillChunked_mirrors {fuel : Nat} (h : Mirrors mem ctx seq)
    (hfuel : tokens.length < fuel) :
    ∃ mem', prefillChunked m mem fuel seq tokens =
        some (mem', (Session.prefillChunked m ctx seq tokens).2) ∧
      Mirrors mem' (Session.prefillChunked m ctx seq tokens).1 seq := by
  have hpos : 0 ≤ tokens.length → (ctx.lanes seq).length = kvSeqLen mem seq + 0 := by
    intro _
    exact h.kvSeqLen.symm
  exact prefillLoop_mirrors h hpos (by omega) hfuel

/-- The outcome over positions and the one over token lists agree. -/
structure Reflects (r : Prefilled L) (r' : Session.Prefilled L) (seq : Nat) : Prop where
  mirrors : Mirrors r.mem r'.ctx seq
  slot : r.slot = r'.slot
  ok : r.ok = r'.ok
  stats : r.stats = r'.stats

theorem prefillTail_mirrors {fuel lcp : Nat} (h : Mirrors mem ctx seq)
    (hfuel : prompt.length < fuel) :
    ∃ r, prefillTail m mem fuel seq lcp slot prompt = some r ∧
      Reflects r (Session.prefillTail m ctx seq lcp slot prompt) seq := by
  by_cases hlt : lcp < prompt.length
  · have hrest : (prompt.drop lcp).length < fuel := by
      rw [List.length_drop]
      omega
    obtain ⟨mem', hrun, hmem⟩ := prefillChunked_mirrors (m := m) h hrest
    simp only [prefillTail, Session.prefillTail, if_pos hlt, hrun, Option.map_some]
    refine ⟨_, rfl, ?_⟩
    cases hok : (Session.prefillChunked m ctx seq (prompt.drop lcp)).2 with
    | false => exact ⟨hmem, rfl, rfl, rfl⟩
    | true => exact ⟨hmem, rfl, rfl, rfl⟩
  · simp only [prefillTail, Session.prefillTail, if_neg hlt]
    exact ⟨_, rfl, h, rfl, rfl, rfl⟩

theorem prefillEmpty_eq_tail {fuel : Nat} (hne : prompt ≠ []) :
    prefillEmpty m mem fuel seq slot prompt = prefillTail m mem fuel seq 0 slot prompt := by
  simp [prefillEmpty, prefillTail, List.length_pos_iff.mpr hne]

theorem mirrors_clear (h : mem.logits = ctx.logits) (hcalls : mem.calls = ctx.calls) :
    Mirrors (sessionClearSeq mem seq) (Session.sessionClearSeq ctx seq) seq := by
  refine ⟨?_, h, hcalls⟩
  simp [sessionClearSeq, dropFrom, Session.sessionClearSeq, spellFrom]

/-- One round of `session_prefill` with a prompt and a lane. -/
theorem sessionPrefill_succ {fuel : Nat} (hne : prompt ≠ []) (hseq : slot.seqId = some seq) :
    sessionPrefill m (fuel + 1) mem slot prompt =
      if kvSeqLen mem seq = 0 then prefillTail m mem fuel seq 0 slot prompt
      else if slot.kvTokens.length ≠ kvSeqLen mem seq then
        sessionPrefill m fuel (sessionResetKv mem slot).1 (sessionResetKv mem slot).2 prompt
      else if tokenCommonPrefix slot.kvTokens prompt < slot.kvTokens.length then
        match seqRm m mem seq (tokenCommonPrefix slot.kvTokens prompt) with
        | (mem, true) => prefillTail m mem fuel seq (tokenCommonPrefix slot.kvTokens prompt)
            { slot with kvTokens := slot.kvTokens.take (tokenCommonPrefix slot.kvTokens prompt) }
            prompt
        | (mem, false) =>
          sessionPrefill m fuel (sessionResetKv mem slot).1 (sessionResetKv mem slot).2 prompt
      else prefillTail m mem fuel seq (tokenCommonPrefix slot.kvTokens prompt) slot prompt := by
  rw [sessionPrefill, if_neg hne]
  split
  · rename_i h
    rw [hseq] at h
    cases h
  · rename_i h
    rw [hseq] at h
    cases h
    rw [prefillEmpty_eq_tail hne]

theorem sessionPrefill_reset {fuel : Nat} (hne : prompt ≠ []) (hseq : slot.seqId = some seq) :
    sessionPrefill m (fuel + 1) (sessionResetKv mem slot).1 (sessionResetKv mem slot).2 prompt =
      prefillTail m (sessionClearSeq mem seq) fuel seq 0 { slot with kvTokens := [] } prompt := by
  have hreset : sessionResetKv mem slot =
      (sessionClearSeq mem seq, { slot with kvTokens := [] }) := by
    simp [sessionResetKv, hseq]
  have hempty : kvSeqLen (sessionClearSeq mem seq) seq = 0 := by
    simp [kvSeqLen, posEnd_eq_zero, sessionClearSeq, dropFrom]
  have hseq' : ({ slot with kvTokens := [] } : SessionSlot).seqId = some seq := hseq
  rw [hreset]
  exact (sessionPrefill_succ hne hseq').trans (if_pos hempty)

/-- Cutting the lane off at the common prefix, where that is not refused. -/
theorem mirrors_cut {k : Nat} (h : Mirrors mem ctx seq) :
    Mirrors { dropFrom mem seq k with calls := ctx.calls + 1 }
      { ctx with
        lanes := Function.update ctx.lanes seq ((ctx.lanes seq).take k)
        calls := ctx.calls + 1 } seq := by
  have hcut := @filter_spellFrom 0 (ctx.lanes seq) k
  rw [Nat.zero_add] at hcut
  refine ⟨?_, h.logits, rfl⟩
  simp [dropFrom, h.cells, hcut]

/-- The token list model is what `session_prefill` does to a lane that spells a token list. -/
theorem sessionPrefill_mirrors {fuel : Nat} (h : Mirrors mem ctx seq) (hne : prompt ≠ [])
    (hseq : slot.seqId = some seq) (hfuel : prompt.length + 3 ≤ fuel) :
    ∃ r, sessionPrefill m fuel mem slot prompt = some r ∧
      Reflects r (Session.sessionPrefill m ctx slot prompt) seq := by
  obtain ⟨fuel, rfl⟩ : ∃ k, fuel = k + 1 + 1 := ⟨fuel - 2, by omega⟩
  have hlen := h.kvSeqLen
  rw [sessionPrefill_succ hne hseq, Session.sessionPrefill, sessionPrefillFuel_succ hne hseq, hlen]
  by_cases hkv : Session.kvSeqLen ctx seq = 0
  · rw [if_pos hkv, if_pos hkv, Session.prefillEmpty_eq_tail hne]
    exact prefillTail_mirrors h (by omega)
  rw [if_neg hkv, if_neg hkv]
  by_cases hledger : slot.kvTokens.length = Session.kvSeqLen ctx seq
  · rw [if_neg (not_not.mpr hledger), if_neg (not_not.mpr hledger)]
    by_cases hlcp : tokenCommonPrefix slot.kvTokens prompt < slot.kvTokens.length
    · rw [if_pos hlcp, if_pos hlcp]
      cases hs : m.succeeds ctx.calls with
      | true =>
        rw [seqRm_ok hs, seqRm, h.calls, if_pos (Or.inr hs)]
        exact prefillTail_mirrors (mirrors_cut h) (by omega)
      | false =>
        rw [seqRm_refused hs, seqRm, h.calls]
        by_cases hzero : tokenCommonPrefix slot.kvTokens prompt = 0
        · -- a full clear is not refused, and comes to the same as the reset of the other model
          rw [if_pos (Or.inl hzero), hzero]
          simp only [sessionPrefillFuel_reset hne hseq, List.take_zero]
          have hcut := @mirrors_cut L mem ctx seq 0 h
          rw [List.take_zero] at hcut
          exact prefillTail_mirrors hcut (by omega)
        · rw [if_neg (by simp [hzero, hs])]
          simp only [sessionPrefillFuel_reset hne hseq, sessionPrefill_reset hne hseq]
          exact prefillTail_mirrors (mirrors_clear h.logits rfl) (by omega)
    · rw [if_neg hlcp, if_neg hlcp]
      exact prefillTail_mirrors h (by omega)
  · rw [if_pos hledger, if_pos hledger, sessionPrefill_reset hne hseq,
      sessionPrefillFuel_reset hne hseq]
    exact prefillTail_mirrors (mirrors_clear h.logits h.calls) (by omega)

end Mirroring

end NotreEngine.Session.Positional
