import NotreEngine.Server.Trimming

/-!
# Context guards

The part of `handle_chat` that fits a request into its context lane: it trims the messages, renders
and tokenizes them, and limits the generation to what is left.
-/
namespace NotreEngine.Server

open Gguf (text)
open Shedding

/-- What the engine fixes for all requests. The chat template and the two ways to tokenize are the
model's. -/
structure PromptSettings where
  nCtxPerSeq : Int
  nCtx : Int
  llamaChatApplyTemplate : List (Str × Str) → Option Str
  tokenize : Str → List Token
  tokenizeRaw : Str → List Token
  rawPrompt : Option Str := none
  thinkDefault : Bool := true
  archQwen3ThinkOff : Bool := false

/-- The fields of a request that decide its prompt. -/
structure PromptRequest where
  messages : List Message
  maxTokens : Int := 256
  enableThinking : Option Bool := none

structure ApiError where
  status : Nat
  message : String
  type : String
  deriving DecidableEq

/-- A request on its way to the generation. -/
structure Admitted where
  messages : List Message
  prompt : List Token
  nGen : Int
  deriving DecidableEq

variable (cfg : PromptSettings) (req : PromptRequest)

/-- The role and the content of a message, if both are texts. -/
def Message.texts : Message → Option (Str × Str)
  | .object (.string role) (.string content) => some (role, content)
  | _ => none

def applyChatTemplate (messages : List Message) : Except String Str :=
  match messages.mapM Message.texts with
  | some msgs =>
    match cfg.llamaChatApplyTemplate msgs with
    | some out => .ok out
    | none => .error "chat template failed"
  | none => .error "each message needs string 'role' and 'content'"

def countMsgTokens (messages : List Message) : Int :=
  match applyChatTemplate cfg messages with
  | .ok rendered => (cfg.tokenize rendered).length
  | .error _ => -1

def laneCtx : Int := if 0 < cfg.nCtxPerSeq then cfg.nCtxPerSeq else cfg.nCtx

/-- At least one token is asked for, whatever the request says. -/
def maxTokens : Int := if req.maxTokens < 1 then 1 else req.maxTokens

def maxPromptTokens : Int := laneCtx cfg - maxTokens req - 4

/-- The rendered text with a closed, empty think block behind it. -/
def closeThinking (rendered : Str) : Str :=
  (rendered.reverse.dropWhile fun c => c = 10 ∨ c = 32).reverse ++
    text "\n<think>\n\n</think>\n\n"

def promptTokens (rendered : Str) : List Token :=
  let rendered :=
    if !req.enableThinking.getD cfg.thinkDefault && cfg.archQwen3ThinkOff then
      closeThinking rendered
    else rendered
  match cfg.rawPrompt with
  | some raw => cfg.tokenizeRaw raw
  | none => cfg.tokenize rendered

def invalidRequest (message : String) : ApiError := ⟨400, message, "invalid_request_error"⟩

def contextLengthExceeded (message : String) : ApiError := ⟨400, message, "context_length_exceeded"⟩

/-- The guards on the messages that the trimming leaves. -/
def checkPrompt (messages : List Message) : Except ApiError Admitted :=
  let lane := laneCtx cfg
  let final := countMsgTokens cfg messages
  if final < 0 then .error (invalidRequest "could not tokenize messages")
  else if maxPromptTokens cfg req < final then
    .error (contextLengthExceeded
      (s!"messages exceed context lane ({lane} tokens) even after trim; " ++
        "shorten system prompt or max_tokens"))
  else
    match applyChatTemplate cfg messages with
    | .error err => .error (invalidRequest err)
    | .ok rendered =>
      let prompt := promptTokens cfg req rendered
      let size := prompt.length
      let headroom := lane - size - 4
      if headroom < 1 then
        .error (contextLengthExceeded
          (s!"prompt of {size} tokens does not fit context lane of {lane}; " ++
            "raise CNE_CTX or trim messages"))
      else .ok ⟨messages, prompt, min (maxTokens req) headroom⟩

/-- The answer, unless the trimming raises an exception. -/
def contextGuards : Except TypeError (Except ApiError Admitted) :=
  let budget := maxPromptTokens cfg req
  if budget < 1 then
    .ok (.error (invalidRequest
      s!"max_tokens too large for context lane ({laneCtx cfg} tokens)"))
  else
    (trimMessagesForContext (countMsgTokens cfg) budget req.messages).map fun trimmed =>
      checkPrompt cfg req trimmed.1

/-- Every list of messages that keeps the last one that is not the system's can be counted, and is
over what `max_tokens` leaves of the lane for the prompt. -/
def CannotFit : Prop :=
  ∀ k < loose Message.isSystem req.messages,
    0 ≤ countMsgTokens cfg (withoutOldest k req.messages) ∧
      maxPromptTokens cfg req < countMsgTokens cfg (withoutOldest k req.messages)

/-- The question is not trimmed away: a request that goes on still has it and fits its lane, and
one that cannot fit is told so. -/
structure KeepsQuestion : Prop where
  admitted : ∀ a, contextGuards cfg req = .ok (.ok a) →
    (a.messages.filter fun msg => !msg.isSystem).getLast? =
        (req.messages.filter fun msg => !msg.isSystem).getLast? ∧
      a.prompt.length + a.nGen ≤ laneCtx cfg
  rejected : CannotFit cfg req →
    ∃ err, contextGuards cfg req = .ok (.error err) ∧ err.type = "context_length_exceeded"

/-- These messages are over the prompt budget, or their prompt leaves no room in the lane. -/
def TooLong (messages : List Message) : Prop :=
  maxPromptTokens cfg req < countMsgTokens cfg messages ∨
    ∃ rendered, applyChatTemplate cfg messages = .ok rendered ∧
      laneCtx cfg - (promptTokens cfg req rendered).length - 4 < 1

variable {cfg req} {messages : List Message}

theorem countMsgTokens_ok {rendered : Str} (h : applyChatTemplate cfg messages = .ok rendered) :
    countMsgTokens cfg messages = (cfg.tokenize rendered).length := by
  simp only [countMsgTokens, h]

theorem countMsgTokens_error {err : String} (h : applyChatTemplate cfg messages = .error err) :
    countMsgTokens cfg messages = -1 := by
  simp only [countMsgTokens, h]

/-- A list that can be rendered has two texts in each message. -/
theorem roleError_of_mapM {msgs : List (Str × Str)} {msg : Message}
    (h : messages.mapM Message.texts = some msgs) (hmem : msg ∈ messages) :
    msg.roleError = none := by
  induction messages generalizing msgs with
  | nil => cases hmem
  | cons first later ih =>
    rw [List.mapM_cons] at h
    obtain ⟨t, hfirst, h⟩ := Option.bind_eq_some_iff.mp h
    obtain ⟨ts, hlater, -⟩ := Option.bind_eq_some_iff.mp h
    rcases List.mem_cons.mp hmem with rfl | hmem
    · revert hfirst
      unfold Message.texts Message.roleError
      split
      · intro _
        rfl
      · intro hnone
        cases hnone
    · exact ih hlater hmem

/-- The trimming of a request raises no exception: where a role is no text, nothing is counted. -/
theorem trim_counted (cfg : PromptSettings) (budget : Int) (messages : List Message) :
    ∃ k, trimMessagesForContext (countMsgTokens cfg) budget messages =
        .ok (withoutOldest k messages, k) ∧
      IsLeastShed Message.isSystem (Settles (countMsgTokens cfg) budget) messages k := by
  obtain ⟨k, hleast, -, htrim⟩ := trimMessagesForContext_sheds (countMsgTokens cfg) budget messages
  refine ⟨k, ?_, hleast⟩
  rw [htrim]
  cases htexts : messages.mapM Message.texts with
  | none =>
    have htemplate : applyChatTemplate cfg messages =
        .error "each message needs string 'role' and 'content'" := by
      simp only [applyChatTemplate, htexts]
    have hcount := countMsgTokens_error htemplate
    have hsettled : Settles (countMsgTokens cfg) budget messages := Or.inr (by omega)
    rw [hleast.unique (isLeastShed_zero hsettled), shed_zero, withoutOldest, dropOldest_zero]
  | some msgs =>
    have hread : (oldest k messages).findSome? Message.roleError = none := by
      rw [List.findSome?_eq_none_iff]
      intro msg hmsg
      exact roleError_of_mapM htexts (List.mem_of_mem_filter (List.mem_of_mem_take hmsg))
    rw [shed, hread]

theorem maxTokens_pos (req : PromptRequest) : 0 < maxTokens req := by
  unfold maxTokens
  split
  · exact Int.one_pos
  · omega

/-- How the guards answer for the messages that are left. -/
theorem checkPrompt_cases (hbudget : 1 ≤ maxPromptTokens cfg req) (kept : List Message) :
    TooLong cfg req kept ∧ (∃ message,
        checkPrompt cfg req kept = .error (contextLengthExceeded message)) ∨
      ¬TooLong cfg req kept ∧ (∃ message,
        checkPrompt cfg req kept = .error (invalidRequest message)) ∨
      ¬TooLong cfg req kept ∧ ∃ a, checkPrompt cfg req kept = .ok a ∧ a.messages = kept ∧
        0 < a.nGen ∧ a.prompt.length + a.nGen ≤ laneCtx cfg - 4 := by
  simp only [checkPrompt]
  cases htemplate : applyChatTemplate cfg kept with
  | error err =>
    have hcount := countMsgTokens_error htemplate
    refine Or.inr (Or.inl ⟨?_, "could not tokenize messages", by rw [if_pos (by omega)]⟩)
    rintro (hover | ⟨rendered, hrendered, -⟩)
    · omega
    · rw [htemplate] at hrendered
      cases hrendered
  | ok rendered =>
    have hcount := countMsgTokens_ok htemplate
    rw [if_neg (by omega)]
    by_cases hover : maxPromptTokens cfg req < countMsgTokens cfg kept
    · rw [if_pos hover]
      exact Or.inl ⟨Or.inl hover, _, rfl⟩
    rw [if_neg hover]
    by_cases hroom : laneCtx cfg - (promptTokens cfg req rendered).length - 4 < 1
    · simp only [if_pos hroom]
      exact Or.inl ⟨Or.inr ⟨rendered, htemplate, hroom⟩, _, rfl⟩
    · simp only [if_neg hroom]
      refine Or.inr (Or.inr ⟨?_, _, rfl, rfl, ?_, ?_⟩)
      · rintro (hover' | ⟨rendered', hrendered, hroom'⟩)
        · exact hover hover'
        · rw [htemplate] at hrendered
          cases hrendered
          exact hroom hroom'
      · exact lt_min (maxTokens_pos req) (by omega)
      · have := min_le_right (maxTokens req)
          (laneCtx cfg - (promptTokens cfg req rendered).length - 4)
        simp only
        omega

/-- The last message that is not the system's survives any trimming short of all of them. -/
theorem getLast_withoutOldest {k : Nat} (h : k < loose Message.isSystem messages) :
    ((withoutOldest k messages).filter fun msg => !msg.isSystem).getLast? =
      (messages.filter fun msg => !msg.isSystem).getLast? := by
  rw [withoutOldest, filter_loose_dropOldest, List.getLast?_drop, if_neg]
  rw [loose, List.countP_eq_length_filter] at h
  exact not_le.mpr h

/-- Where the trimming stops short of the last of them, that list fits or is not counted. -/
theorem not_cannotFit {k : Nat} (hbudget : 1 ≤ maxPromptTokens cfg req)
    (hk : k < loose Message.isSystem req.messages)
    (hleast : IsLeastShed Message.isSystem
      (Settles (countMsgTokens cfg) (maxPromptTokens cfg req)) req.messages k) :
    ¬CannotFit cfg req := by
  intro hcannot
  obtain ⟨-, hover⟩ := hcannot k hk
  rcases hleast with ⟨hfits | hfits, -⟩ | ⟨-, heq⟩
  · exact not_lt.mpr hfits hover
  · change countMsgTokens cfg (withoutOldest k req.messages) ≤ 0 at hfits
    omega
  · omega

/-- Where it takes all of them, no list that keeps the last one fits. -/
theorem cannotFit_of_all (hleast : IsLeastShed Message.isSystem
      (Settles (countMsgTokens cfg) (maxPromptTokens cfg req)) req.messages
      (loose Message.isSystem req.messages)) : CannotFit cfg req := by
  intro j hj
  have hunsettled : ¬Settles (countMsgTokens cfg) (maxPromptTokens cfg req)
      (withoutOldest j req.messages) := by
    intro hfits
    rcases hleast with ⟨-, hmin⟩ | ⟨hnone, -⟩
    · exact absurd (hmin hfits) (not_le.mpr hj)
    · exact hnone j hfits
  constructor
  · by_contra hneg
    exact hunsettled (Or.inr (by omega))
  · by_contra hle
    exact hunsettled (Or.inl (not_lt.mp hle))

/-- Without a prompt budget every request is refused for its `max_tokens`. -/
theorem contextGuards_of_lt (hbudget : maxPromptTokens cfg req < 1) :
    ∃ message, contextGuards cfg req = .ok (.error (invalidRequest message)) := by
  refine ⟨s!"max_tokens too large for context lane ({laneCtx cfg} tokens)", ?_⟩
  simp only [contextGuards, if_pos hbudget]

/-- A request that goes on generates something and fits its lane with four tokens to spare. -/
theorem contextGuards_ok {a : Admitted} (h : contextGuards cfg req = .ok (.ok a)) :
    0 < a.nGen ∧ a.prompt.length + a.nGen ≤ laneCtx cfg - 4 := by
  by_cases hbudget : 1 ≤ maxPromptTokens cfg req
  · obtain ⟨k, htrim, -⟩ := trim_counted cfg (maxPromptTokens cfg req) req.messages
    simp only [contextGuards, if_neg (not_lt.mpr hbudget), htrim] at h
    have hcheck : checkPrompt cfg req (withoutOldest k req.messages) = .ok a := Except.ok.inj h
    rcases checkPrompt_cases hbudget (withoutOldest k req.messages) with
      ⟨-, message, herr⟩ | ⟨-, message, herr⟩ | ⟨-, b, hok, -, hroom⟩
    · rw [herr] at hcheck
      cases hcheck
    · rw [herr] at hcheck
      cases hcheck
    · rw [hok] at hcheck
      cases hcheck
      exact hroom
  · obtain ⟨message, hrefused⟩ := contextGuards_of_lt (not_le.mp hbudget)
    rw [hrefused] at h
    cases h

/-- The question is kept precisely unless it cannot fit while `max_tokens` leaves a budget that the
system's messages alone do not exceed, or leaves none at all. -/
theorem keepsQuestion_iff (cfg : PromptSettings) (req : PromptRequest)
    (hasked : ∃ msg ∈ req.messages, msg.isSystem = false) :
    KeepsQuestion cfg req ↔
      (CannotFit cfg req → 1 ≤ maxPromptTokens cfg req ∧
        TooLong cfg req (req.messages.filter Message.isSystem)) := by
  have hpos : 0 < loose Message.isSystem req.messages := by
    obtain ⟨msg, hmem, hmsg⟩ := hasked
    exact List.countP_pos_iff.mpr ⟨msg, hmem, by simp [hmsg]⟩
  by_cases hbudget : 1 ≤ maxPromptTokens cfg req
  · obtain ⟨k, htrim, hleast⟩ := trim_counted cfg (maxPromptTokens cfg req) req.messages
    have hguards : contextGuards cfg req =
        .ok (checkPrompt cfg req (withoutOldest k req.messages)) := by
      simp only [contextGuards, if_neg (not_lt.mpr hbudget), htrim]
      rfl
    rcases hleast.le.lt_or_eq with hk | rfl
    · have hfits := not_cannotFit hbudget hk hleast
      refine iff_of_true ⟨?_, fun h => (hfits h).elim⟩ (fun h => (hfits h).elim)
      intro a ha
      rw [hguards] at ha
      have ha := Except.ok.inj ha
      rcases checkPrompt_cases hbudget (withoutOldest k req.messages) with
        ⟨-, message, herr⟩ | ⟨-, message, herr⟩ | ⟨-, b, hok, hmsgs, -, hroom⟩
      · rw [herr] at ha
        cases ha
      · rw [herr] at ha
        cases ha
      · rw [hok] at ha
        cases ha
        rw [hmsgs]
        exact ⟨getLast_withoutOldest hk, by omega⟩
    · have hcannot := cannotFit_of_all hleast
      have hsystem : withoutOldest (loose Message.isSystem req.messages) req.messages =
          req.messages.filter Message.isSystem := dropOldest_of_loose_le le_rfl
      rw [hsystem] at hguards
      rcases checkPrompt_cases hbudget (req.messages.filter Message.isSystem) with
        ⟨hlong, message, herr⟩ | ⟨hshort, message, herr⟩ | ⟨hshort, a, hok, -⟩
      · rw [herr] at hguards
        refine iff_of_true ⟨fun a ha => ?_, fun _ => ⟨_, hguards, rfl⟩⟩ (fun _ => ⟨hbudget, hlong⟩)
        rw [hguards] at ha
        cases ha
      · rw [herr] at hguards
        refine iff_of_false (fun hkeeps => ?_) (fun h => hshort (h hcannot).2)
        obtain ⟨err, herr', htype⟩ := hkeeps.rejected hcannot
        rw [hguards] at herr'
        cases herr'
        simp [invalidRequest] at htype
      · rw [hok] at hguards
        refine iff_of_false (fun hkeeps => ?_) (fun h => hshort (h hcannot).2)
        obtain ⟨err, herr', -⟩ := hkeeps.rejected hcannot
        rw [hguards] at herr'
        cases herr'
  · obtain ⟨message, hrefused⟩ := contextGuards_of_lt (not_le.mp hbudget)
    constructor
    · intro hkeeps hcannot
      obtain ⟨err, herr, htype⟩ := hkeeps.rejected hcannot
      rw [hrefused] at herr
      cases herr
      simp [invalidRequest] at htype
    · intro h
      refine ⟨fun a ha => ?_, fun hcannot => absurd (h hcannot).1 hbudget⟩
      rw [hrefused] at ha
      cases ha

/-- A lane of 16 tokens, one token for each byte, and a template that adds one byte. -/
def byteLane : PromptSettings where
  nCtxPerSeq := 16
  nCtx := 16
  llamaChatApplyTemplate msgs := some (msgs.flatMap Prod.snd ++ [58])
  tokenize s := s.map fun _ => 0
  tokenizeRaw s := s.map fun _ => 0

/-- A question of `n` bytes and nothing else. -/
def asks (n : Nat) : PromptRequest where
  messages := [.object (.string (text "user")) (.string (List.replicate n 97))]
  maxTokens := 1

theorem keepsQuestion_iff_short : KeepsQuestion byteLane (asks 3) := by
  apply (keepsQuestion_iff byteLane (asks 3) ⟨_, List.mem_cons_self, by decide⟩).mpr
  intro hcannot
  exact absurd (hcannot 0 (by decide)).2 (by decide)

/-- A question that is longer than the lane is erased, and the rest is answered. -/
theorem not_keepsQuestion : ¬∀ (cfg : PromptSettings) (req : PromptRequest),
    (∃ msg ∈ req.messages, msg.isSystem = false) → KeepsQuestion cfg req := by
  intro h
  have hkeeps := h byteLane (asks 20) ⟨_, List.mem_cons_self, by decide⟩
  have hanswer : contextGuards byteLane (asks 20) = .ok (.ok ⟨[], [0], 1⟩) := by decide
  obtain ⟨hlast, -⟩ := hkeeps.admitted _ hanswer
  exact absurd hlast (by decide)

end NotreEngine.Server
