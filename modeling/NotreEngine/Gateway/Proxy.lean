import NotreEngine.Gateway.Policy
import NotreEngine.Session.Tenancy

/-!
# The chat a request names

`extract_chat_id` of the gateway's `proxy.py`, the request it forwards, and the conversation the
engine resolves from it.
-/

namespace NotreEngine.Gateway

open Gguf (text)
open Config (Json)
open Session (ChatRequest makeConversationId conversationOwnedBy resolveConversationId)

/-- The encodings of the characters that `str.strip` removes. -/
def spaces : List Str :=
  [[9], [10], [11], [12], [13], [28], [29], [30], [31], [32], [194, 133], [194, 160],
    [225, 154, 128], [226, 128, 128], [226, 128, 129], [226, 128, 130], [226, 128, 131],
    [226, 128, 132], [226, 128, 133], [226, 128, 134], [226, 128, 135], [226, 128, 136],
    [226, 128, 137], [226, 128, 138], [226, 128, 168], [226, 128, 169], [226, 128, 175],
    [226, 129, 159], [227, 128, 128]]

/-- The text without what it begins with of `blanks`, at most `n` times. -/
def stripFront (blanks : List Str) : Nat → Str → Str
  | 0, s => s
  | n + 1, s =>
    match blanks.find? fun b => b.isPrefixOf s with
    | some b => stripFront blanks n (s.drop b.length)
    | none => s

/-- `s.strip()`, on the encoding of a text. -/
def strip (s : Str) : Str :=
  let s := stripFront spaces s.length s
  (stripFront (spaces.map List.reverse) s.length s.reverse).reverse

section Proxy

variable {F : Type}

/-- `hdr` is the `X-Chat-Id` header, if there is one. -/
def extractChatId (hdr : Option Str) (body : Members F) : Option Str :=
  if hdr.getD [] ≠ [] then
    let hdr := strip (hdr.getD [])
    if hdr = [] then none else some hdr
  else
    match Assoc.find body (text "chat_id") with
    | some (.string raw) => if strip raw ≠ [] then some (strip raw) else none
    | _ => none

def upstreamHeaders (internalApiKey userId : Str) (chatId : Option Str) : List (Str × Str) :=
  [(text "Authorization", text "Bearer " ++ internalApiKey), (text "X-User-Id", userId),
    (text "Content-Type", text "application/json")] ++
    match chatId with
    | some c => if c = [] then [] else [(text "X-Chat-Id", c)]
    | none => []

/-- The body that `proxy_json` and `proxy_stream` send. -/
def forwardedBody (body : Members F) (chatId : Option Str) : Members F :=
  match chatId with
  | some c =>
    if c ≠ [] ∧ Assoc.find body (text "chat_id") = none then
      Assoc.put body (text "chat_id") (.string c)
    else body
  | none => body

/-- A field of the body, if it is a string. -/
def stringField (body : Members F) (key : Str) : Option Str :=
  match Assoc.find body key with
  | some (.string s) => some s
  | _ => none

/-- What the engine reads of a request to find its conversation. -/
def chatRequest (headers : List (Str × Str)) (body : Members F) : ChatRequest where
  chatId := stringField body (text "chat_id")
  conversationId := stringField body (text "conversation_id")
  convHdr := (Assoc.find headers (text "X-Conversation-Id")).getD []

/-- What the engine resolves for a request that the gateway forwards for a user. -/
def resolved (requireChatId : Bool) (internalApiKey user : Str) (body : Members F)
    (chatId : Option Str) : Except Session.HttpError Str :=
  resolveConversationId requireChatId
    (chatRequest (upstreamHeaders internalApiKey user chatId) (forwardedBody body chatId)) user true

/-- The engine resolves the chat that the gateway has extracted, for a request that is sent and
passes. `accepts` is whether the HTTP client takes a header with its value. -/
def AgreesOnChat (accepts : Str × Str → Bool) (requireChatId : Bool) (internalApiKey user : Str)
    (hdr : Option Str) (body : Members F) : Prop :=
  ∀ c, extractChatId hdr body = some c →
    (upstreamHeaders internalApiKey user (some c)).all accepts = true →
    ∀ id, resolved requireChatId internalApiKey user body (some c) = .ok id →
      id = makeConversationId user c

/-- The body names no other chat than `c`. -/
def NamesChat (requireChatId : Bool) (user c : Str) (body : Members F) : Prop :=
  let chat := (stringField body (text "chat_id")).getD []
  let conversation := (stringField body (text "conversation_id")).getD []
  Assoc.find body (text "chat_id") = none ∨
    chat ≠ [] ∧ (chat = c ∨ conversation ≠ []) ∨
    chat = [] ∧
      (conversation = [] ∧ requireChatId = true ∨
        conversation ≠ [] ∧
          (conversation = makeConversationId user c ∨
            conversationOwnedBy conversation user = false))

end Proxy

variable {F : Type} {hdr : Option Str} {body : Members F} {user internalApiKey c chat id : Str}
  {requireChatId : Bool} {accepts : Str × Str → Bool}

theorem extractChatId_ne_nil (h : extractChatId hdr body = some c) : c ≠ [] := by
  unfold extractChatId at h
  split at h
  · dsimp only at h
    split at h
    · cases h
    · rename_i hne
      exact Option.some.inj h ▸ hne
  · split at h
    · split at h
      · rename_i hne
        exact Option.some.inj h ▸ hne
      · cases h
    · cases h

/-- The gateway sends no `X-Conversation-Id`. -/
theorem convHdr_upstream (body : Members F) (chatId : Option Str) :
    (chatRequest (upstreamHeaders internalApiKey user chatId) body).convHdr = [] := by
  cases chatId with
  | none => rfl
  | some c => cases c <;> rfl

theorem makeConversationId_inj : makeConversationId user c = makeConversationId user chat ↔
    c = chat := by
  simp [makeConversationId]

theorem makeConversationId_ne_nil : makeConversationId user c ≠ [] := by
  simp [makeConversationId]

/-- What the engine resolves, by the texts of the two fields of the body it is sent. -/
theorem resolve_iff (b : ChatRequest) (hhdr : b.convHdr = []) :
    resolveConversationId requireChatId b user true = .ok id ↔
      b.chatId.getD [] ≠ [] ∧ b.conversationId.getD [] = [] ∧
          makeConversationId user (b.chatId.getD []) = id ∨
        b.chatId.getD [] = [] ∧
          (b.conversationId.getD [] ≠ [] ∧
              conversationOwnedBy (b.conversationId.getD []) user = true ∧
              b.conversationId.getD [] = id ∨
            b.conversationId.getD [] = [] ∧ requireChatId = false ∧ [] = id) := by
  unfold resolveConversationId
  rw [hhdr]
  generalize b.chatId.getD [] = chat
  generalize b.conversationId.getD [] = conversation
  by_cases hchat : chat = []
  · by_cases hconv : conversation = []
    · cases requireChatId <;> simp [hchat, hconv]
    · cases howned : conversationOwnedBy conversation user <;>
        simp [hchat, hconv, howned]
  · by_cases hconv : conversation = [] <;> simp [hchat, hconv]

/-- A chat that the body has no field for is the one the engine reads. -/
theorem chatRequest_added {headers : List (Str × Str)} (hc : c ≠ [])
    (hnone : Assoc.find body (text "chat_id") = none) :
    (chatRequest headers (forwardedBody body (some c))).chatId = some c := by
  simp [chatRequest, forwardedBody, hc, hnone, stringField]

theorem forwardedBody_of_some {v : Json F}
    (hsome : Assoc.find body (text "chat_id") = some v) : forwardedBody body (some c) = body := by
  simp [forwardedBody, hsome]

/-- The engine agrees with the gateway exactly when the body names no other chat. -/
theorem agreesOnChat_iff (accepts : Str × Str → Bool) (requireChatId : Bool)
    (internalApiKey user : Str) (hdr : Option Str) (body : Members F) :
    AgreesOnChat accepts requireChatId internalApiKey user hdr body ↔
      ∀ c, extractChatId hdr body = some c →
        (upstreamHeaders internalApiKey user (some c)).all accepts = true →
        NamesChat requireChatId user c body := by
  apply forall_congr'
  intro c
  apply imp_congr_right
  intro hextract
  apply imp_congr_right
  intro _
  have hc := extractChatId_ne_nil hextract
  unfold NamesChat
  cases hfind : Assoc.find body (text "chat_id") with
  | none =>
    refine iff_of_true ?_ (Or.inl rfl)
    intro id hid
    rw [resolved, resolve_iff _ (convHdr_upstream _ _), chatRequest_added hc hfind] at hid
    rcases hid with ⟨-, -, hid⟩ | ⟨hnil, -⟩
    · simpa using hid.symm
    · exact absurd hnil hc
  | some v =>
    simp only [resolved, forwardedBody_of_some hfind, resolve_iff _ (convHdr_upstream _ _),
      reduceCtorEq, false_or]
    simp only [chatRequest]
    generalize (stringField body (text "chat_id")).getD [] = chat
    generalize (stringField body (text "conversation_id")).getD [] = conversation
    by_cases hchat : chat = []
    · by_cases hconv : conversation = []
      · cases requireChatId <;>
          simp [hchat, hconv, makeConversationId_ne_nil.symm]
      · cases conversationOwnedBy conversation user <;> simp [hchat, hconv]
    · by_cases hconv : conversation = [] <;>
        simp [hchat, hconv, makeConversationId_inj]

theorem not_agreesOnChat :
    ¬ AgreesOnChat (fun _ => true) false (text "k") (text "u") (some (text "a"))
      ([(text "chat_id", .string (text "b"))] : Members Unit) := by
  intro h
  have hid := h (text "a") (by decide) rfl (text "u:b") (by decide)
  revert hid
  decide

end NotreEngine.Gateway
