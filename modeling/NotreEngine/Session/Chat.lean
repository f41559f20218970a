import NotreEngine.Session.Engine
import NotreEngine.Session.Tenancy

/-!
# Chat requests

A chat request from the binding of its slot to its reply. One without a slot works on lane 0,
which the store also hands out to conversations.
-/
namespace NotreEngine.Session

open Transition SessionStore

/-- A chat request with all that decides its generation; it is greedy if its temperature is at
most 0. -/
structure ChatTurn (L : Type) where
  body : ChatRequest
  user : Str
  stream : Bool
  greedy : Bool
  prompt : List Token
  generation : Generation L

variable {L : Type} (m : Llama L) (generateMtp : Context L → List Token → Context L)
  (cfg : ServerSettings)

/-- Lane 0 is cleared after a request that has no slot. -/
def Engine.clearStateless (e : Engine L) (slot : Option SessionSlot) : Engine L :=
  if slot = none then { e with ctx := sessionClearSeq e.ctx 0 } else e

/-- Either arm of the generation. What the speculative one leaves in the context is up to
`generateMtp`. -/
def Engine.runArm (e : Engine L) (q : ChatTurn L) (slot : Option SessionSlot) : Engine L :=
  if 0 < cfg.mtpK ∧ q.greedy then { e with ctx := generateMtp e.ctx q.prompt }
  else
    match slot with
    | some s => e.generate m q.generation s q.prompt
    | none => { e with ctx := (generateSequential m e.ctx q.generation none q.prompt).ctx }

/-- The job of the engine thread. -/
def Engine.runJob (e : Engine L) (q : ChatTurn L) (slot : Option SessionSlot) : Engine L :=
  if q.stream then (e.runArm m generateMtp cfg q slot).clearStateless slot
  else e.runArm m generateMtp cfg q slot

def Engine.handleChat (e : Engine L) (q : ChatTurn L) : Engine L :=
  match openChat cfg e.sessions e.ctx q.body q.user with
  | ((st, ctx), .error _) => { ctx := ctx, sessions := st }
  | ((st, ctx), .ok slot) =>
    let e := ({ ctx := ctx, sessions := st } : Engine L).runJob m generateMtp cfg q slot
    if q.stream then e else e.clearStateless slot

/-- Runs of requests, one after the other, from an empty store of any size and empty lanes. -/
def chatSystem : System (Engine L) (ChatTurn L) where
  start e := e.sessions.slots = [] ∧ ∀ l, e.ctx.lanes l = []
  step e q e' := e' = e.handleChat m generateMtp cfg q

/-- Every slot of the store is as it was, and so is its lane. -/
structure Undisturbed (e e' : Engine L) : Prop where
  slots : e'.sessions.slots = e.sessions.slots
  lanes : ∀ s ∈ e.sessions.slots, ∀ l, s.seqId = some l → e'.ctx.lanes l = e.ctx.lanes l

variable {m generateMtp cfg} {e : Engine L} {q : ChatTurn L} {st : SessionStore} {ctx : Context L}
  {body : ChatRequest} {user id : Str}

/-- A request only fails to get a slot in a way that leaves the store alone. -/
theorem bindConversation_none {clearConv : Bool}
    (h : (bindConversation cfg st ctx id clearConv user).2 = none) :
    (bindConversation cfg st ctx id clearConv user).1 = (st, ctx) := by
  simp only [bindConversation] at h ⊢
  split at h
  · rename_i hwant
    rw [if_pos hwant]
    cases hget : (clearedFirst st ctx id clearConv).1.getOrCreate
        (clearedFirst st ctx id clearConv).2 id user with
    | mk r res =>
      cases res with
      | ok slot => simp [hget] at h
      | error err =>
        obtain ⟨hst, hctx, t, ht, _⟩ := getOrCreate_error hget
        cases clearConv with
        | true =>
          obtain ⟨hmem, hid⟩ := find_some ht
          exact ((mem_clearedFirst.mp hmem).2 rfl hid).elim
        | false => exact Prod.ext hst hctx
  · rename_i hwant
    rw [if_neg hwant]

theorem openChat_none (h : (openChat cfg st ctx body user).2 = .ok none) :
    openChat cfg st ctx body user = ((st, ctx), .ok none) := by
  refine Prod.ext ?_ h
  simp only [openChat] at h ⊢
  cases hres : resolveConversationId cfg.requireChatId body user
      (cfg.apiEnabled && decide (user ≠ [])) with
  | error err => rfl
  | ok id =>
    simp only [hres] at h ⊢
    split at h
    · cases h
    · rename_i hok
      rw [if_neg hok]
      exact bindConversation_none (Except.ok.inj h)

/-- With sessions off or speculation on, requests are never given a slot. -/
theorem openChat_disabled (st : SessionStore) (ctx : Context L) (body : ChatRequest) (user : Str)
    (h : ¬(cfg.sessionsEnabled = true ∧ cfg.mtpK = 0)) :
    (openChat cfg st ctx body user).1 = (st, ctx) ∧
      ∀ slot, (openChat cfg st ctx body user).2 ≠ .ok (some slot) := by
  have hbind : ∀ id clearConv,
      bindConversation cfg st ctx id clearConv user = ((st, ctx), none) := by
    intro id clearConv
    simp only [bindConversation]
    exact if_neg fun hwant => h ⟨hwant.1, hwant.2.2⟩
  simp only [openChat, hbind]
  split
  · exact ⟨rfl, fun slot hs => by cases hs⟩
  · split
    · exact ⟨rfl, fun slot hs => by cases hs⟩
    · exact ⟨rfl, fun slot hs => by cases hs⟩

theorem runArm_none_sessions : (e.runArm m generateMtp cfg q none).sessions = e.sessions := by
  simp only [Engine.runArm]
  split
  · rfl
  · rfl

/-- In either response mode a request without a slot ends with the clearing of lane 0. -/
theorem handleChat_stateless (h : (openChat cfg e.sessions e.ctx q.body q.user).2 = .ok none) :
    e.handleChat m generateMtp cfg q = (e.runArm m generateMtp cfg q none).clearStateless none := by
  simp only [Engine.handleChat, openChat_none h, Engine.runJob]
  cases q.stream with
  | true => rfl
  | false => rfl

theorem clearStateless_lane_zero : (e.clearStateless none).ctx.lanes 0 = [] := by
  rw [Engine.clearStateless, if_pos rfl]
  rfl

theorem clearStateless_other {l : Nat} (h : l ≠ 0) :
    (e.clearStateless none).ctx.lanes l = e.ctx.lanes l := by
  rw [Engine.clearStateless, if_pos rfl]
  exact Function.update_of_ne h _ _

/-- The store stays empty where requests are never given a slot. -/
theorem chat_slots_nil (hoff : ¬(cfg.sessionsEnabled = true ∧ cfg.mtpK = 0))
    (h : (chatSystem m generateMtp cfg).Reachable e) : e.sessions.slots = [] := by
  apply h.invariant (P := fun e => e.sessions.slots = [])
  · intro e hstart
    exact hstart.1
  · intro e q e' hnil hstep
    rw [show e' = e.handleChat m generateMtp cfg q from hstep]
    obtain ⟨hsame, hnone⟩ := openChat_disabled e.sessions e.ctx q.body q.user hoff
    cases hres : (openChat cfg e.sessions e.ctx q.body q.user).2 with
    | error err =>
      have hopen : openChat cfg e.sessions e.ctx q.body q.user =
          ((e.sessions, e.ctx), .error err) := Prod.ext hsame hres
      simp only [Engine.handleChat, hopen]
      exact hnil
    | ok slot =>
      cases slot with
      | none =>
        rw [handleChat_stateless hres]
        exact (congrArg SessionStore.slots runArm_none_sessions).trans hnil
      | some s => exact (hnone s hres).elim

/-- A request without a slot leaves all conversations and their lanes as they were exactly when
none of them has its lane 0 in use. -/
theorem undisturbed_iff_lane_zero_idle (m : Llama L)
    (generateMtp : Context L → List Token → Context L) (cfg : ServerSettings) (e : Engine L)
    (q : ChatTurn L) (h : (chatSystem m generateMtp cfg).Reachable e)
    (hstateless : (openChat cfg e.sessions e.ctx q.body q.user).2 = .ok none) :
    Undisturbed e (e.handleChat m generateMtp cfg q) ↔
      ∀ s ∈ e.sessions.slots, s.seqId = some 0 → e.ctx.lanes 0 = [] := by
  rw [handleChat_stateless hstateless]
  constructor
  · intro hsame s hs hlane
    rw [← hsame.lanes s hs 0 hlane, clearStateless_lane_zero]
  · intro hidle
    refine ⟨congrArg SessionStore.slots runArm_none_sessions, ?_⟩
    intro s hs l hl
    by_cases hmtp : 0 < cfg.mtpK ∧ q.greedy = true
    · -- with speculation on there is no conversation to disturb
      have hnil : e.sessions.slots = [] := chat_slots_nil (fun hon => by omega) h
      rw [hnil] at hs
      cases hs
    · by_cases hzero : l = 0
      · rw [hzero] at hl ⊢
        rw [clearStateless_lane_zero, hidle s hs hl]
      · rw [clearStateless_other hzero]
        simp only [Engine.runArm, if_neg hmtp]
        exact generateSequential_stateless_other hzero

/-- A server with sessions on and no API mode. -/
def openSettings : ServerSettings := ⟨false, false, true, 0⟩

theorem steadyBatch_pos : 0 < 8 := Nat.succ_pos 7

def steadyModel : Llama Unit := ⟨8, steadyBatch_pos, fun _ => (), fun _ => true⟩

/-- A request for a conversation, or for none, that generates nothing. -/
def promptTurn (conversationId : Option Str) : ChatTurn Unit where
  body := { conversationId := conversationId }
  user := []
  stream := true
  greedy := true
  prompt := [5]
  generation := ⟨0, fun _ _ => 0, fun _ => false, fun _ => false⟩

def parkedEngine : Engine Unit :=
  Engine.handleChat steadyModel (fun ctx _ => ctx) openSettings
    ⟨{}, { maxSlots := 2, maxSlots_pos := Nat.two_pos }⟩ (promptTurn (some [97]))

def passedEngine : Engine Unit :=
  parkedEngine.handleChat steadyModel (fun ctx _ => ctx) openSettings (promptTurn none)

theorem parkedEngine_reachable :
    (chatSystem steadyModel (fun ctx _ => ctx) openSettings).Reachable parkedEngine := by
  have hstart : (chatSystem steadyModel (fun ctx _ => ctx) openSettings).start
      ⟨{}, { maxSlots := 2, maxSlots_pos := Nat.two_pos }⟩ := ⟨rfl, fun _ => rfl⟩
  exact .step (.start hstart) rfl

/-- A second request without a conversation finds lane 0 already cleared by the first. -/
theorem undisturbed_iff_lane_zero_idle_again : Undisturbed passedEngine
    (passedEngine.handleChat steadyModel (fun ctx _ => ctx) openSettings (promptTurn none)) := by
  apply (undisturbed_iff_lane_zero_idle steadyModel (fun ctx _ => ctx) openSettings passedEngine
    (promptTurn none) (.step parkedEngine_reachable rfl) rfl).mpr
  intro s _ _
  rfl

/-- The first conversation gets lane 0, which the next request without one clears. -/
theorem not_undisturbed : ¬∀ (m : Llama Unit) (generateMtp : Context Unit → List Token → Context Unit)
    (cfg : ServerSettings) (e : Engine Unit) (q : ChatTurn Unit),
    (chatSystem m generateMtp cfg).Reachable e →
    (openChat cfg e.sessions e.ctx q.body q.user).2 = .ok none →
    Undisturbed e (e.handleChat m generateMtp cfg q) := by
  intro h
  have hsame := h steadyModel (fun ctx _ => ctx) openSettings parkedEngine (promptTurn none)
    parkedEngine_reachable rfl
  have hlane := hsame.lanes ⟨[97], [], [5], some 0, 1⟩ (by decide) 0 rfl
  have hbefore : parkedEngine.ctx.lanes 0 = [5] := rfl
  have hafter : (parkedEngine.handleChat steadyModel (fun ctx _ => ctx) openSettings
      (promptTurn none)).ctx.lanes 0 = [] := rfl
  rw [hbefore, hafter] at hlane
  cases hlane

end NotreEngine.Session
