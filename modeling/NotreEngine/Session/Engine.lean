import NotreEngine.Session.Generation
import NotreEngine.Session.Store
import NotreEngine.Transition

/-!
# Requests on the engine

The engine as one request at a time sees it: session turns, stateless requests, evictions and
removals, each run to its end.
-/
namespace NotreEngine.Session

open Transition

structure Engine (L : Type) where
  ctx : Context L
  sessions : SessionStore

inductive Event (L : Type) where
  | turn (id owner : Str) (prompt : List Token) (g : Generation L)
  | stateless (prompt : List Token) (g : Generation L)
  | evictLru
  | evictLruForOwner (owner : Str)
  | remove (id : Str)

variable {L : Type} (m : Llama L)

/-- Generate on a slot of the store, which the generation updates in place. -/
def Engine.generate (e : Engine L) (g : Generation L) (slot : SessionSlot) (prompt : List Token) :
    Engine L :=
  let r := generateSequential m e.ctx g (some slot) prompt
  { ctx := r.ctx
    sessions :=
      match r.slot with
      | some s => e.sessions.put s
      | none => e.sessions }

def Engine.run (e : Engine L) : Event L → Engine L
  | .turn id owner prompt g =>
    match e.sessions.getOrCreate e.ctx id owner with
    | ((st, ctx), .ok slot) => ({ ctx := ctx, sessions := st } : Engine L).generate m g slot prompt
    | ((st, ctx), .error _) => { ctx := ctx, sessions := st }
  | .stateless prompt g =>
    { e with ctx := sessionClearSeq (generateSequential m e.ctx g none prompt).ctx 0 }
  | .evictLru =>
    let r := e.sessions.evictLru e.ctx
    { ctx := r.2, sessions := r.1 }
  | .evictLruForOwner owner =>
    let r := e.sessions.evictLruForOwner e.ctx owner
    { ctx := r.2, sessions := r.1 }
  | .remove id =>
    let r := e.sessions.remove e.ctx id
    { ctx := r.2, sessions := r.1 }

/-- Runs from an empty store and empty lanes. -/
def engineSystem : System (Engine L) (Event L) where
  start e := e.sessions.slots = [] ∧ ∀ l, e.ctx.lanes l = []
  step e a e' := e' = e.run m a

/-- The run that takes the given steps. -/
def Engine.history (e : Engine L) : List (Event L) → List (Event L × Engine L)
  | [] => []
  | a :: as => (a, e.run m a) :: (e.run m a).history as

theorem trace_history (m : Llama L) (e : Engine L) (as : List (Event L)) :
    (engineSystem m).Trace e (e.history m as) := by
  induction as generalizing e with
  | nil => exact .nil e
  | cons a as ih => exact .cons rfl (ih _)

variable {m} {ctx : Context L} {g : Generation L} {slot s : SessionSlot} {prompt : List Token}
  {e : Engine L} {seq : Nat}

theorem wf_nil {st : SessionStore} (h : st.slots = []) : st.Wf := by
  refine ⟨?_, ?_, ?_⟩ <;> simp [h]

theorem decode_other {tokens : List Token} {flag : Bool} {l : Nat} (h : l ≠ seq) :
    (decode m ctx seq tokens flag).1.lanes l = ctx.lanes l := by
  unfold decode
  split
  · exact Function.update_of_ne h _ _
  · rfl

/-- Two slots that differ at most in their ledgers. -/
def SameSlot (s t : SessionSlot) : Prop := t.id = s.id ∧ t.owner = s.owner ∧ t.seqId = s.seqId

theorem SameSlot.trans {t u : SessionSlot} (h : SameSlot s t) (h' : SameSlot t u) :
    SameSlot s u := ⟨h'.1.trans h.1, h'.2.1.trans h.2.1, h'.2.2.trans h.2.2⟩

/-- The frame of a piece of work on one slot: it stays the same slot, and only its lane changes. -/
structure Drives (ctx : Context L) (slot : SessionSlot) (ctx' : Context L)
    (slot' : SessionSlot) : Prop where
  same : SameSlot slot slot'
  lanes : ∀ l, slot.seqId ≠ some l → ctx'.lanes l = ctx.lanes l

theorem Drives.refl : Drives ctx slot ctx slot := ⟨⟨rfl, rfl, rfl⟩, fun _ _ => rfl⟩

theorem Drives.trans {ctx' ctx'' : Context L} {slot' slot'' : SessionSlot}
    (h : Drives ctx slot ctx' slot') (h' : Drives ctx' slot' ctx'' slot'') :
    Drives ctx slot ctx'' slot'' :=
  ⟨h.same.trans h'.same,
    fun l hl => (h'.lanes l (h.same.2.2 ▸ hl)).trans (h.lanes l hl)⟩

theorem prefillChunked_other {tokens : List Token} {l : Nat} (h : l ≠ seq) :
    (prefillChunked m ctx seq tokens).1.lanes l = ctx.lanes l := by
  rcases prefillChunked_cases m ctx seq tokens with ⟨_, hf⟩ | ⟨_, _, hf⟩
  · rw [hf.lanes, Function.update_of_ne h]
  · rw [hf.lanes, Function.update_of_ne h]

theorem drives_prefillTail {lcp : Nat} (hseq : slot.seqId = some seq) :
    Drives ctx slot (prefillTail m ctx seq lcp slot prompt).ctx
      (prefillTail m ctx seq lcp slot prompt).slot := by
  have hother : ∀ l, slot.seqId ≠ some l →
      (prefillChunked m ctx seq (prompt.drop lcp)).1.lanes l = ctx.lanes l := by
    intro l hl
    apply prefillChunked_other
    rintro rfl
    exact hl hseq
  simp only [prefillTail]
  split
  · split
    · exact ⟨⟨rfl, rfl, rfl⟩, hother⟩
    · exact ⟨⟨rfl, rfl, rfl⟩, hother⟩
  · exact ⟨⟨rfl, rfl, rfl⟩, fun _ _ => rfl⟩

theorem Entry.drives {ctx' : Context L} {lcp : Nat} {ledger : List Token}
    (h : Entry m ctx seq slot prompt ctx' lcp ledger) (hseq : slot.seqId = some seq) :
    Drives ctx slot ctx' { slot with kvTokens := ledger } := by
  refine ⟨⟨rfl, rfl, rfl⟩, ?_⟩
  intro l hl
  have hne : l ≠ seq := by
    rintro rfl
    exact hl hseq
  cases h with
  | empty => rfl
  | reset _ _ h =>
    rw [h]
    exact Function.update_of_ne hne _ _
  | reuse _ _ _ h _ =>
    rw [h]
    exact Function.update_of_ne hne _ _

theorem drives_sessionPrefill (m : Llama L) (ctx : Context L) (slot : SessionSlot)
    (prompt : List Token) : Drives ctx slot (sessionPrefill m ctx slot prompt).ctx
      (sessionPrefill m ctx slot prompt).slot := by
  by_cases hne : prompt = []
  · rw [sessionPrefill, sessionPrefillFuel, if_pos hne]
    exact .refl
  · cases hseq : slot.seqId with
    | none =>
      rw [sessionPrefill_unbound hne hseq]
      exact .refl
    | some seq =>
      obtain ⟨ctx', lcp, ledger, hentry, heq⟩ := sessionPrefill_entry m ctx hne hseq
      rw [heq]
      exact (hentry.drives hseq).trans (drives_prefillTail hseq)

theorem drives_feed (m : Llama L) (ctx : Context L) (slot : SessionSlot) (id : Token) :
    Drives ctx slot (feed m ctx (some slot) id).1 slot := by
  refine ⟨⟨rfl, rfl, rfl⟩, ?_⟩
  intro l hl
  cases hseq : slot.seqId with
  | none => simp only [feed, sessionDecodeToken, hseq]
  | some seq =>
    simp only [feed, sessionDecodeToken, hseq]
    apply decode_other
    rintro rfl
    exact hl hseq

/-- The generation loop on a slot ends on the same slot, and only its lane changes. -/
theorem drives_generateLoop (m : Llama L) (g : Generation L) (n i : Nat) (ctx : Context L)
    (slot : SessionSlot) : ∃ slot', (generateLoop m g n i ctx (some slot)).slot = some slot' ∧
      Drives ctx slot (generateLoop m g n i ctx (some slot)).ctx slot' := by
  induction n generalizing i ctx slot with
  | zero => exact ⟨slot, rfl, .refl⟩
  | succ n ih =>
    rcases generateLoop_cases m g n i ctx (some slot) with
      ⟨f, _, heq⟩ | ⟨id, _, _, rfl, _, heq⟩ | ⟨id, _, _, rfl, _, heq⟩
    · rw [heq]
      exact ⟨slot, rfl, .refl⟩
    · have happend : Drives ctx slot ctx (sessionAppendToken slot id) :=
        ⟨⟨rfl, rfl, rfl⟩, fun _ _ => rfl⟩
      have hfeed := happend.trans (drives_feed m ctx _ id)
      obtain ⟨slot', hslot, hd⟩ := ih (i + 1) (feed m ctx (some (sessionAppendToken slot id)) id).1
        (sessionAppendToken slot id)
      rw [heq]
      exact ⟨slot', hslot, hfeed.trans hd⟩
    · have happend : Drives ctx slot ctx (sessionAppendToken slot id) :=
        ⟨⟨rfl, rfl, rfl⟩, fun _ _ => rfl⟩
      rw [heq]
      exact ⟨_, rfl, happend.trans (drives_feed m ctx _ id)⟩

theorem drives_generateSequential (m : Llama L) (ctx : Context L) (g : Generation L)
    (slot : SessionSlot) (prompt : List Token) : ∃ slot',
    (generateSequential m ctx g (some slot) prompt).slot = some slot' ∧
      Drives ctx slot (generateSequential m ctx g (some slot) prompt).ctx slot' := by
  have hprefill := drives_sessionPrefill m ctx slot prompt
  simp only [generateSequential]
  split
  · obtain ⟨slot', hslot, hd⟩ := drives_generateLoop m g g.nGen 0
      (sessionPrefill m ctx slot prompt).ctx (sessionPrefill m ctx slot prompt).slot
    exact ⟨slot', hslot, hprefill.trans hd⟩
  · exact ⟨_, rfl, hprefill⟩

theorem statelessLoop_other {n l : Nat} {tokens : List Token} (h : l ≠ 0) :
    (statelessLoop m n ctx tokens).1.lanes l = ctx.lanes l := by
  induction n generalizing ctx tokens with
  | zero => rfl
  | succ n ih =>
    simp only [statelessLoop]
    split
    · rfl
    · split
      · rw [ih, decode_other h]
      · exact decode_other h

theorem generateLoop_stateless_other {n i l : Nat} (h : l ≠ 0) :
    (generateLoop m g n i ctx none).ctx.lanes l = ctx.lanes l := by
  induction n generalizing i ctx with
  | zero => rfl
  | succ n ih =>
    rcases generateLoop_cases m g n i ctx none with
      ⟨f, _, heq⟩ | ⟨id, _, _, rfl, _, heq⟩ | ⟨id, _, _, rfl, _, heq⟩
    · rw [heq]
    · rw [heq]
      exact ih.trans (decode_other h)
    · rw [heq]
      exact decode_other h

/-- A stateless request works on lane 0 alone. -/
theorem generateSequential_stateless_other {l : Nat} (h : l ≠ 0) :
    (generateSequential m ctx g none prompt).ctx.lanes l = ctx.lanes l := by
  have hclear : (sessionClearSeq ctx 0).lanes l = ctx.lanes l := Function.update_of_ne h _ _
  simp only [generateSequential]
  split
  · rw [generateLoop_stateless_other h, statelessLoop_other h, hclear]
  · rw [statelessLoop_other h, hclear]

section Run

open SessionStore

/-- What a generation on a slot of the store leaves: that slot with a new ledger and its lane;
all other slots and lanes are as they were. -/
theorem generate_spec (prompt : List Token) (h : e.sessions.Wf) (hs : slot ∈ e.sessions.slots) :
    ∃ slot', (generateSequential m e.ctx g (some slot) prompt).slot = some slot' ∧
      SameSlot slot slot' ∧ slot' ∈ (e.generate m g slot prompt).sessions.slots ∧
      (e.generate m g slot prompt).sessions.Wf ∧
      ∀ t ∈ (e.generate m g slot prompt).sessions.slots, t = slot' ∨ t ∈ e.sessions.slots ∧
        t.id ≠ slot.id ∧
        ∀ l, t.seqId = some l → (e.generate m g slot prompt).ctx.lanes l = e.ctx.lanes l := by
  obtain ⟨slot', hslot, hd⟩ := drives_generateSequential m e.ctx g slot prompt
  have hsess : (e.generate m g slot prompt).sessions = e.sessions.put slot' := by
    simp only [Engine.generate, hslot]
  refine ⟨slot', hslot, hd.same, ?_, ?_, ?_⟩
  · rw [hsess, mem_put]
    exact Or.inl rfl
  · rw [hsess]
    exact wf_put_of_mem h hs hd.same.1 hd.same.2.2
  · intro t ht
    rw [hsess, mem_put] at ht
    rcases ht with rfl | ⟨ht, hid⟩
    · exact Or.inl rfl
    · rw [hd.same.1] at hid
      refine Or.inr ⟨ht, hid, ?_⟩
      intro l hl
      apply hd.lanes
      intro hsl
      exact hid (by rw [h.lanes_apart t ht slot hs l hl hsl])

end Run

end NotreEngine.Session
