import NotreEngine.Session.Chat

/-!
# Ownership refusals

When a chat request in API mode is told that its conversation belongs to another user. The reply is
given whenever no slot came back, also where the request was never to have one.
-/
namespace NotreEngine.Session

open Transition SessionStore

/-- The store has a slot of that id whose owner is a different user. -/
def OwnedByOther (st : SessionStore) (id user : Str) : Prop :=
  ∃ s ∈ st.slots, s.id = id ∧ s.owner ≠ [] ∧ s.owner ≠ user

def ownershipRefusal : HttpError := ⟨403, "conversation owned by another user"⟩

/-- Requests can have a session slot at all. -/
def SessionsUsable (cfg : ServerSettings) : Prop := cfg.sessionsEnabled = true ∧ cfg.mtpK = 0

/-- The reply is the refusal exactly for the conversation of another user, and otherwise the
request goes on, with a slot where sessions are usable and statelessly where they are not. -/
structure RefusesExactly (cfg : ServerSettings) (st : SessionStore) (id user : Str)
    (reply : Except HttpError (Option SessionSlot)) : Prop where
  refused_iff : reply = .error ownershipRefusal ↔ OwnedByOther st id user
  proceeds : ¬OwnedByOther st id user →
    ∃ slot, reply = .ok slot ∧ (slot.isSome = true ↔ SessionsUsable cfg)

variable {L : Type} {cfg : ServerSettings} {st : SessionStore} {ctx : Context L}
  {body : ChatRequest} {user id : Str}

section Reply

/-- `get_or_create` fails exactly on the slot of another user. -/
theorem getOrCreate_refused_iff (hwf : st.Wf) (hu : user ≠ []) :
    (∃ err, (st.getOrCreate ctx id user).2 = .error err) ↔ OwnedByOther st id user := by
  constructor
  · rintro ⟨err, herr⟩
    obtain ⟨-, -, s, hs, -, hown, hne⟩ := getOrCreate_error (Prod.ext rfl herr)
    obtain ⟨hmem, hid⟩ := find_some hs
    exact ⟨s, hmem, hid, hown, hne⟩
  · rintro ⟨s, hs, hid, hown, hne⟩
    rw [getOrCreate_foreign (hwf.find_iff.mpr ⟨hs, hid⟩) hu hown hne]
    exact ⟨_, rfl⟩

/-- After the clearing of the conversation there is nobody left who owns it. -/
theorem ownedByOther_clearedFirst {clearConv : Bool} :
    OwnedByOther (clearedFirst st ctx id clearConv).1 id user ↔
      clearConv = false ∧ OwnedByOther st id user := by
  constructor
  · rintro ⟨s, hs, hid, hown⟩
    obtain ⟨hs, hkept⟩ := mem_clearedFirst.mp hs
    refine ⟨?_, s, hs, hid, hown⟩
    cases clearConv with
    | false => rfl
    | true => exact (hkept rfl hid).elim
  · rintro ⟨rfl, s, hs, hid, hown⟩
    exact ⟨s, mem_clearedFirst.mpr ⟨hs, fun h => by cases h⟩, hid, hown⟩

/-- With sessions usable the reply is what `get_or_create` says. -/
theorem openChat_usable (ctx : Context L) (hapi : cfg.apiEnabled = true) (hu : user ≠ [])
    (hres : resolveConversationId cfg.requireChatId body user true = .ok id) (hid : id ≠ [])
    (hon : SessionsUsable cfg) (hwf : st.Wf) :
    (body.clearConversation = false ∧ OwnedByOther st id user ∧
        (openChat cfg st ctx body user).2 = .error ownershipRefusal) ∨
      (¬(body.clearConversation = false ∧ OwnedByOther st id user) ∧
        ∃ slot, (openChat cfg st ctx body user).2 = .ok (some slot)) := by
  have hmode : (cfg.apiEnabled && decide (user ≠ [])) = true := by simp [hapi, hu]
  have hwant : cfg.sessionsEnabled = true ∧ id ≠ [] ∧ cfg.mtpK = 0 := ⟨hon.1, hid, hon.2⟩
  have hcleared : Sheds st ctx (clearedFirst st ctx id body.clearConversation).1
    (clearedFirst st ctx id body.clearConversation).2 := sheds_clearedFirst hwf
  have hiff := @getOrCreate_refused_iff L (clearedFirst st ctx id body.clearConversation).1
    (clearedFirst st ctx id body.clearConversation).2 user id hcleared.wf hu
  rw [ownedByOther_clearedFirst] at hiff
  simp only [openChat, hmode, hres, bindConversation, if_pos hwant]
  cases hget : (clearedFirst st ctx id body.clearConversation).1.getOrCreate
      (clearedFirst st ctx id body.clearConversation).2 id user with
  | mk r res =>
    rw [hget] at hiff
    cases res with
    | error err =>
      obtain ⟨hkept, hforeign⟩ := hiff.mp ⟨err, rfl⟩
      exact Or.inl ⟨hkept, hforeign, by simp [hid, ownershipRefusal]⟩
    | ok slot =>
      refine Or.inr ⟨fun hforeign => ?_, slot, by simp⟩
      obtain ⟨err, herr⟩ := hiff.mpr hforeign
      cases herr

/-- Where sessions are not usable, every conversation is refused. -/
theorem openChat_unusable (hapi : cfg.apiEnabled = true) (hu : user ≠ [])
    (hres : resolveConversationId cfg.requireChatId body user true = .ok id) (hid : id ≠ [])
    (hoff : ¬SessionsUsable cfg) :
    (openChat cfg st ctx body user).2 = .error ownershipRefusal := by
  have hmode : (cfg.apiEnabled && decide (user ≠ [])) = true := by simp [hapi, hu]
  have hwant : ¬(cfg.sessionsEnabled = true ∧ id ≠ [] ∧ cfg.mtpK = 0) :=
    fun h => hoff ⟨h.1, h.2.2⟩
  simp only [openChat, hmode, hres, bindConversation, if_neg hwant]
  simp [hid, ownershipRefusal]

end Reply

section Runs

theorem tenant_slots_nil (hoff : ¬SessionsUsable cfg)
    (h : (tenantSystem L cfg).Reachable (st, ctx)) : st.slots = [] := by
  apply h.invariant (P := fun x => x.1.slots = [])
  · intro x hx
    exact hx
  · intro x a y hnil hs
    cases hs with
    | @refused st ctx body user r err ho =>
      have hsame := (openChat_disabled st ctx body user hoff).1
      rw [ho] at hsame
      cases hsame
      exact hnil
    | @served st ctx body user r slot slot' ctx' ho _ =>
      have hnone := (openChat_disabled st ctx body user hoff).2 slot
      rw [ho] at hnone
      exact (hnone rfl).elim
    | @stateless st ctx body user r ctx' ho =>
      have hsame := (openChat_disabled st ctx body user hoff).1
      rw [ho] at hsame
      cases hsame
      exact hnil

/-- In API mode the refusals are exact precisely where sessions are usable and the request does
not clear the conversation of another user. -/
theorem refusesExactly_iff (cfg : ServerSettings) (st : SessionStore) (ctx : Context L)
    (body : ChatRequest) (user id : Str) (hapi : cfg.apiEnabled = true) (hu : user ≠ [])
    (hres : resolveConversationId cfg.requireChatId body user true = .ok id) (hid : id ≠ [])
    (h : (tenantSystem L cfg).Reachable (st, ctx)) :
    RefusesExactly cfg st id user (openChat cfg st ctx body user).2 ↔
      SessionsUsable cfg ∧ ¬(body.clearConversation = true ∧ OwnedByOther st id user) := by
  by_cases hon : SessionsUsable cfg
  · rcases openChat_usable ctx hapi hu hres hid hon (tenant_wf h) with
      ⟨hkept, hforeign, hreply⟩ | ⟨hno, slot, hreply⟩
    · rw [hreply]
      apply iff_of_true
      · exact ⟨iff_of_true rfl hforeign, fun hn => (hn hforeign).elim⟩
      · refine ⟨hon, fun hclear => ?_⟩
        rw [hkept] at hclear
        cases hclear.1
    · rw [hreply]
      constructor
      · intro hexact
        refine ⟨hon, fun hclear => ?_⟩
        cases hexact.refused_iff.mpr hclear.2
      · rintro ⟨-, hkeeps⟩
        have hmine : ¬OwnedByOther st id user := by
          intro hforeign
          cases hclear : body.clearConversation with
          | false => exact hno ⟨hclear, hforeign⟩
          | true => exact hkeeps ⟨hclear, hforeign⟩
        refine ⟨iff_of_false (fun h => by cases h) hmine, fun _ => ?_⟩
        exact ⟨some slot, rfl, iff_of_true rfl hon⟩
  · have hreply : (openChat cfg st ctx body user).2 = .error ownershipRefusal :=
      openChat_unusable hapi hu hres hid hon
    have hmine : ¬OwnedByOther st id user := by
      rintro ⟨s, hs, _⟩
      rw [tenant_slots_nil hon h] at hs
      cases hs
    rw [hreply]
    refine iff_of_false (fun hexact => ?_) (fun h => hon h.1)
    exact hmine (hexact.refused_iff.mp rfl)

/-- User `a` goes on with its own chat `b` while user `a:b` has one, too. -/
theorem refusesExactly_iff_own : RefusesExactly apiSettings colonStore
    (makeConversationId [97] [98]) [97]
    (openChat apiSettings colonStore ({} : Context Unit) { chatId := some [98] } [97]).2 := by
  apply (refusesExactly_iff apiSettings colonStore ({} : Context Unit) { chatId := some [98] } [97]
    (makeConversationId [97] [98]) rfl (by decide) rfl (by decide) colonStore_reachable).mpr
  refine ⟨⟨rfl, rfl⟩, ?_⟩
  rintro ⟨h, _⟩
  cases h

/-- With sessions off, user `a` is refused a conversation that nobody has. -/
theorem not_refusesExactly : ¬∀ (cfg : ServerSettings) (st : SessionStore) (ctx : Context Unit)
    (body : ChatRequest) (user id : Str), cfg.apiEnabled = true → user ≠ [] →
    resolveConversationId cfg.requireChatId body user true = .ok id → id ≠ [] →
    (tenantSystem Unit cfg).Reachable (st, ctx) →
    RefusesExactly cfg st id user (openChat cfg st ctx body user).2 := by
  intro h
  have hexact := h ⟨true, false, false, 0⟩ emptyStore ({} : Context Unit)
    { chatId := some [98] } [97] (makeConversationId [97] [98]) rfl (by decide) rfl (by decide)
    (.start rfl)
  obtain ⟨s, hs, _⟩ := hexact.refused_iff.mp rfl
  cases hs

end Runs

end NotreEngine.Session
