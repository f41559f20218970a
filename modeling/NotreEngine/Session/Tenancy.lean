import NotreEngine.Session.Engine

/-!
# Tenants

How a chat request names a conversation and binds its slot. The owner of a slot is checked when it
is bound, but a request that clears the conversation first removes the slot unasked.
-/
namespace NotreEngine.Session

open Transition SessionStore

structure HttpError where
  status : Nat
  message : String
  deriving DecidableEq

/-- The fields of a chat request that name its conversation; `none` where the body has no string
of that name. -/
structure ChatRequest where
  chatId : Option Str := none
  conversationId : Option Str := none
  convHdr : Str := []
  clearConversation : Bool := false

structure ServerSettings where
  apiEnabled : Bool
  requireChatId : Bool
  sessionsEnabled : Bool
  mtpK : Int

/-- User and chat joined by a colon. -/
def makeConversationId (userId chatId : Str) : Str := userId ++ [58] ++ chatId

def conversationOwnedBy (conversationId userId : Str) : Bool :=
  if userId = [] then false
  else
    let pre := userId ++ [58]
    decide (pre.length < conversationId.length) && decide (conversationId.take pre.length = pre)

def resolveConversationId (requireChatId : Bool) (body : ChatRequest) (apiUser : Str)
    (apiMode : Bool) : Except HttpError Str :=
  let chatId := body.chatId.getD []
  let convId := body.conversationId.getD body.convHdr
  if ¬apiMode then .ok convId
  else if chatId ≠ [] ∧ convId ≠ [] then
    .error ⟨400, "send either chat_id or conversation_id, not both"⟩
  else if chatId ≠ [] then .ok (makeConversationId apiUser chatId)
  else if convId ≠ [] then
    if conversationOwnedBy convId apiUser then .ok convId
    else .error ⟨403, "conversation_id does not belong to authenticated user"⟩
  else if requireChatId then .error ⟨400, "chat_id required in API mode for session reuse"⟩
  else .ok []

variable {L : Type}

/-- The store `get_or_create` is called on. -/
def clearedFirst (st : SessionStore) (ctx : Context L) (convId : Str) (clearConv : Bool) :
    SessionStore × Context L :=
  if clearConv then st.remove ctx convId else (st, ctx)

def bindConversation (cfg : ServerSettings) (st : SessionStore) (ctx : Context L) (convId : Str)
    (clearConv : Bool) (owner : Str) : (SessionStore × Context L) × Option SessionSlot :=
  if cfg.sessionsEnabled ∧ convId ≠ [] ∧ cfg.mtpK = 0 then
    let r := clearedFirst st ctx convId clearConv
    match r.1.getOrCreate r.2 convId owner with
    | (r, .ok slot) => (r, some slot)
    | (r, .error _) => (r, none)
  else ((st, ctx), none)

/-- `handle_chat` up to the generation: the slot it is to use, if any, or the error reply. -/
def openChat (cfg : ServerSettings) (st : SessionStore) (ctx : Context L) (body : ChatRequest)
    (apiUser : Str) : (SessionStore × Context L) × Except HttpError (Option SessionSlot) :=
  let apiMode := cfg.apiEnabled && decide (apiUser ≠ [])
  match resolveConversationId cfg.requireChatId body apiUser apiMode with
  | .error err => ((st, ctx), .error err)
  | .ok convId =>
    let b := bindConversation cfg st ctx convId body.clearConversation apiUser
    if apiMode ∧ convId ≠ [] ∧ b.2 = none then
      (b.1, .error ⟨403, "conversation owned by another user"⟩)
    else (b.1, .ok b.2)

/-- A whole request. The generation gives its own slot a new ledger; what it does to the lanes is
left open. -/
inductive TenantStep (cfg : ServerSettings) :
    SessionStore × Context L → ChatRequest × Str → SessionStore × Context L → Prop
  | refused {st ctx body user r err} :
      openChat cfg st ctx body user = (r, .error err) → TenantStep cfg (st, ctx) (body, user) r
  | served {st ctx body user r slot slot' ctx'} :
      openChat cfg st ctx body user = (r, .ok (some slot)) → SameSlot slot slot' →
      TenantStep cfg (st, ctx) (body, user) (r.1.put slot', ctx')
  | stateless {st ctx body user r ctx'} :
      openChat cfg st ctx body user = (r, .ok none) →
      TenantStep cfg (st, ctx) (body, user) (r.1, ctx')

/-- Runs of requests by any users, from an empty store of any capacity. -/
def tenantSystem (L : Type) (cfg : ServerSettings) :
    System (SessionStore × Context L) (ChatRequest × Str) where
  start s := s.1.slots = []
  step := TenantStep cfg

namespace SessionStore

/-- The slots the loop of the owner's limit evicts, in order. -/
def ownerVictims (owner : Str) : Nat → SessionStore → Context L → List SessionSlot
  | 0, _, _ => []
  | n + 1, st, ctx =>
    if st.maxSlotsPerUser ≤ st.countForOwner owner then
      let rest := ownerVictims owner n (st.evictLruForOwner ctx owner).1
        (st.evictLruForOwner ctx owner).2
      match leastRecent (st.slots.filter fun s => s.owner = owner) with
      | some doomed => doomed :: rest
      | none => (leastRecent st.slots).toList ++ rest
    else []

/-- The slots the loop of the store's limit evicts, in order. -/
def fullVictims : Nat → SessionStore → Context L → List SessionSlot
  | 0, _, _ => []
  | n + 1, st, ctx =>
    if st.maxSlots ≤ st.slots.length then
      (leastRecent st.slots).toList ++ fullVictims n (st.evictLru ctx).1 (st.evictLru ctx).2
    else []

/-- The slots `get_or_create` evicts for capacity: none when the conversation has a slot, else those
of its two loops, and one more when no lane is free after them. -/
def evictions (st : SessionStore) (ctx : Context L) (id owner : Str) : List SessionSlot :=
  if (st.find id).isSome then []
  else
    let limited := decide (owner ≠ []) && decide (0 < st.maxSlotsPerUser)
    let r := if limited then evictOwnerLoop owner st.slots.length st ctx else (st, ctx)
    (if limited then ownerVictims owner st.slots.length st ctx else []) ++
      fullVictims r.1.slots.length r.1 r.2 ++
      if (st.makeRoom ctx owner).1.allocSeq.2 = none then
        (leastRecent (st.makeRoom ctx owner).1.slots).toList
      else []

end SessionStore

/-- The conversation a request of the user is bound to. -/
def Binds (cfg : ServerSettings) (body : ChatRequest) (user id : Str) : Prop :=
  cfg.sessionsEnabled = true ∧ cfg.mtpK = 0 ∧ id ≠ [] ∧
    resolveConversationId cfg.requireChatId body user true = .ok id

/-- A request leaves a slot alone: it does not get it, and the slot is there as it was unless
`get_or_create` evicts it to make room for the conversation the request is bound to. -/
structure Spares (cfg : ServerSettings) (st : SessionStore) (ctx : Context L) (body : ChatRequest)
    (user : Str) (s : SessionSlot) : Prop where
  unreturned : ∀ t, (openChat cfg st ctx body user).2 = .ok (some t) → t.id ≠ s.id
  unchanged : ∀ t ∈ (openChat cfg st ctx body user).1.1.slots, t.id = s.id → t = s ∧
    ∀ l, t.seqId = some l → (openChat cfg st ctx body user).1.2.lanes l = ctx.lanes l
  kept : s ∈ (openChat cfg st ctx body user).1.1.slots ∨
    ∃ id r, Binds cfg body user id ∧ r = clearedFirst st ctx id body.clearConversation ∧
      s ∈ r.1.slots ∧ s ∈ r.1.evictions r.2 id user
  served : ∀ r, TenantStep cfg (st, ctx) (body, user) r →
    s ∈ (openChat cfg st ctx body user).1.1.slots → s ∈ r.1.slots

/-- The request clears a conversation whose slot belongs to another user. -/
def ClearsForeign (cfg : ServerSettings) (st : SessionStore) (body : ChatRequest)
    (user owner : Str) : Prop :=
  body.clearConversation = true ∧ ∃ id, Binds cfg body user id ∧
    ∃ s ∈ st.slots, s.id = id ∧ s.owner = owner

variable {cfg : ServerSettings} {st st' : SessionStore} {ctx ctx' : Context L}
  {body : ChatRequest} {user owner id : Str} {s slot : SessionSlot}

section Room

theorem drop_kept (h : st.Wf) (hs : s ∈ st.slots) (hd : slot ∈ st.slots) (hne : s ≠ slot) :
    s ∈ (st.drop ctx slot).1.slots :=
  mem_drop.mpr ⟨hs, fun hid => hne (h.eq_of_id hs hd hid)⟩

theorem drop_perUser (st : SessionStore) (ctx : Context L) (slot : SessionSlot) :
    (st.drop ctx slot).1.maxSlotsPerUser = st.maxSlotsPerUser := by
  have hfree : ∀ (st : SessionStore) (seq : Nat),
      (st.freeSeq seq).maxSlotsPerUser = st.maxSlotsPerUser := by
    intro st seq
    unfold freeSeq
    split
    · rfl
    · rfl
  cases hseq : slot.seqId with
  | none => simp only [drop, hseq]
  | some seq => simp only [drop, hseq, hfree]

theorem leastRecent_isSome {ss : List SessionSlot} (h : ss ≠ []) :
    ∃ t, leastRecent ss = some t := by
  cases ss with
  | nil => exact (h rfl).elim
  | cons t ss =>
    rw [leastRecent]
    split
    · split
      · exact ⟨_, rfl⟩
      · exact ⟨_, rfl⟩
    · exact ⟨_, rfl⟩

/-- While the owner has a slot, the eviction for the owner takes one of theirs. -/
theorem evictLruForOwner_eq_drop (ctx : Context L) (h : 0 < st.countForOwner owner) :
    ∃ t ∈ st.slots, t.owner = owner ∧ st.evictLruForOwner ctx owner = st.drop ctx t := by
  have hne : st.slots.filter (fun s => s.owner = owner) ≠ [] := by
    intro hnil
    unfold countForOwner at h
    rw [hnil] at h
    simp at h
  obtain ⟨t, ht⟩ := leastRecent_isSome hne
  obtain ⟨hmem, hown⟩ := List.mem_filter.mp (leastRecent_mem ht)
  exact ⟨t, hmem, by simpa using hown, by simp only [evictLruForOwner, ht]⟩

/-- Making room within the owner's own limit drops only slots of the owner. -/
theorem evictOwnerLoop_kept (n : Nat) (ctx : Context L) (h : st.Wf) (hpos : 0 < st.maxSlotsPerUser)
    (hs : s ∈ st.slots) (hown : s.owner ≠ owner) :
    s ∈ (evictOwnerLoop owner n st ctx).1.slots := by
  induction n generalizing st ctx with
  | zero => exact hs
  | succ n ih =>
    rw [evictOwnerLoop]
    split
    · rename_i hfull
      obtain ⟨t, ht, htown, heq⟩ := evictLruForOwner_eq_drop ctx (hpos.trans_le hfull)
      have hne : s ≠ t := by
        rintro rfl
        exact hown htown
      have hwf : Sheds st ctx (st.drop ctx t).1 (st.drop ctx t).2 := sheds_drop h ht
      have huser : 0 < (st.drop ctx t).1.maxSlotsPerUser := by
        rw [drop_perUser]
        exact hpos
      rw [heq]
      exact ih (st.drop ctx t).2 hwf.wf huser (drop_kept h hs ht hne)
    · exact hs

/-- Of the slots of a store an eviction leaves all but one. -/
theorem evictLru_kept (ctx : Context L) (h : st.Wf) (hs : s ∈ st.slots) :
    s ∈ (st.evictLru ctx).1.slots ∨ leastRecent st.slots = some s := by
  unfold evictLru
  cases hl : leastRecent st.slots with
  | none => exact Or.inl hs
  | some t =>
    by_cases hst : s = t
    · exact Or.inr (by rw [hst])
    · exact Or.inl (drop_kept h hs (leastRecent_mem hl) hst)

theorem kept_or_ownerVictim (n : Nat) (ctx : Context L) (h : st.Wf) (hs : s ∈ st.slots) :
    s ∈ (evictOwnerLoop owner n st ctx).1.slots ∨ s ∈ ownerVictims owner n st ctx := by
  induction n generalizing st ctx with
  | zero => exact Or.inl hs
  | succ n ih =>
    rw [evictOwnerLoop, ownerVictims]
    split
    · have hwf : (st.evictLruForOwner ctx owner).1.Wf := (sheds_evictLruForOwner h).wf
      have hrest := ih (st.evictLruForOwner ctx owner).2 hwf
      cases hl : leastRecent (st.slots.filter fun s => s.owner = owner) with
      | none =>
        have heq : st.evictLruForOwner ctx owner = st.evictLru ctx := by
          rw [evictLruForOwner, hl]
        rw [heq] at hrest ⊢
        rcases evictLru_kept ctx h hs with hkept | hleast
        · exact (hrest hkept).imp_right (List.mem_append_right _)
        · exact Or.inr (List.mem_append_left _ (by simp [hleast]))
      | some t =>
        have heq : st.evictLruForOwner ctx owner = st.drop ctx t := by
          rw [evictLruForOwner, hl]
        rw [heq] at hrest ⊢
        by_cases hst : s = t
        · exact Or.inr (by rw [hst]; exact List.mem_cons_self)
        · have hkept : s ∈ (st.drop ctx t).1.slots :=
            drop_kept h hs (List.mem_of_mem_filter (leastRecent_mem hl)) hst
          exact (hrest hkept).imp_right (List.mem_cons_of_mem _)
    · exact Or.inl hs

theorem kept_or_fullVictim (n : Nat) (ctx : Context L) (h : st.Wf) (hs : s ∈ st.slots) :
    s ∈ (evictLoop n st ctx).1.slots ∨ s ∈ fullVictims n st ctx := by
  induction n generalizing st ctx with
  | zero => exact Or.inl hs
  | succ n ih =>
    rw [evictLoop, fullVictims]
    split
    · have hwf : (st.evictLru ctx).1.Wf := (sheds_evictLru h).wf
      rcases evictLru_kept ctx h hs with hkept | hleast
      · exact (ih _ hwf hkept).imp_right (List.mem_append_right _)
      · exact Or.inr (List.mem_append_left _ (by simp [hleast]))
    · exact Or.inl hs

theorem takeSeq_kept (ctx : Context L) (h : st.Wf) (hs : s ∈ st.slots) :
    s ∈ (st.takeSeq ctx).1.1.slots ∨ st.allocSeq.2 = none ∧ leastRecent st.slots = some s := by
  cases hseq : st.allocSeq.2 with
  | none =>
    rcases evictLru_kept ctx h hs with hkept | hleast
    · left
      simp only [takeSeq, hseq, allocSeq_none hseq]
      rw [allocSeq_slots.1]
      exact hkept
    · exact Or.inr ⟨rfl, hleast⟩
  | some seq =>
    left
    simp only [takeSeq, hseq]
    rw [allocSeq_slots.1]
    exact hs

/-- `get_or_create` drops no slot but those it evicts for capacity. -/
theorem getOrCreate_kept (h : st.Wf) (hs : s ∈ st.slots) (hid : s.id ≠ id)
    (hg : st.getOrCreate ctx id owner = ((st', ctx'), .ok slot)) :
    s ∈ st'.slots ∨ s ∈ st.evictions ctx id owner := by
  cases hf : st.find id with
  | some t =>
    left
    simp only [getOrCreate, hf] at hg
    split at hg
    · cases hg
    · cases hg
      refine mem_touch.mpr (Or.inr ⟨hs, ?_⟩)
      rw [(find_some hf).2.symm] at hid
      split
      · exact hid
      · exact hid
  | none =>
    simp only [getOrCreate, hf] at hg
    cases hg
    rw [evictions, hf]
    simp only [Option.isSome_none, Bool.false_eq_true, if_false]
    generalize hr : (if (decide (owner ≠ []) && decide (0 < st.maxSlotsPerUser)) = true then
      evictOwnerLoop owner st.slots.length st ctx else (st, ctx)) = r
    have hroom : st.makeRoom ctx owner = evictLoop r.1.slots.length r.1 r.2 := by
      rw [makeRoom, ← hr]
      simp only [Bool.and_eq_true, decide_eq_true_eq]
    have hwithin : s ∈ r.1.slots ∨ s ∈
        if (decide (owner ≠ []) && decide (0 < st.maxSlotsPerUser)) = true then
          ownerVictims owner st.slots.length st ctx else [] := by
      rw [← hr]
      split
      · exact kept_or_ownerVictim _ ctx h hs
      · exact Or.inl hs
    have hwf : r.1.Wf := by
      rw [← hr]
      split
      · exact (sheds_evictOwnerLoop _ h).wf
      · exact h
    -- a slot that is gone has gone in one of three places
    rcases hwithin with hin | hgone
    · rcases kept_or_fullVictim r.1.slots.length r.2 hwf hin with hin | hgone
      · rw [← hroom] at hin
        rcases takeSeq_kept (st.makeRoom ctx owner).2 (sheds_makeRoom h).wf hin with
          hin | ⟨hnone, hleast⟩
        · exact Or.inl (mem_touch.mpr (Or.inr ⟨hin, hid⟩))
        · right
          rw [if_pos hnone, hleast]
          exact List.mem_append_right _ (List.mem_singleton_self s)
      · exact Or.inr (List.mem_append_left _ (List.mem_append_right _ hgone))
    · exact Or.inr (List.mem_append_left _ (List.mem_append_left _ hgone))

end Room

section Bind

theorem sheds_clearedFirst {clearConv : Bool} (h : st.Wf) :
    Sheds st ctx (clearedFirst st ctx id clearConv).1 (clearedFirst st ctx id clearConv).2 := by
  unfold clearedFirst
  split
  · exact sheds_remove h
  · exact .refl h

/-- Clearing a conversation first drops its slot and no other. -/
theorem mem_clearedFirst {clearConv : Bool} :
    s ∈ (clearedFirst st ctx id clearConv).1.slots ↔
      s ∈ st.slots ∧ (clearConv = true → s.id ≠ id) := by
  unfold clearedFirst
  cases clearConv with
  | false => simp
  | true =>
    simp only [if_true, forall_const, remove]
    cases hf : st.find id with
    | none =>
      refine ⟨fun hs => ⟨hs, find_none hf s hs⟩, fun hs => hs.1⟩
    | some t =>
      simp only [mem_drop, (find_some hf).2]

theorem bindConversation_wf (cfg : ServerSettings) (ctx : Context L) (id : Str) (clearConv : Bool)
    (owner : Str) (h : st.Wf) :
    (bindConversation cfg st ctx id clearConv owner).1.1.Wf ∧
      ∀ slot, (bindConversation cfg st ctx id clearConv owner).2 = some slot →
        slot ∈ (bindConversation cfg st ctx id clearConv owner).1.1.slots := by
  have hr : Sheds st ctx (clearedFirst st ctx id clearConv).1
    (clearedFirst st ctx id clearConv).2 := sheds_clearedFirst h
  simp only [bindConversation]
  split
  · split
    · rename_i r slot hget
      have hb := getOrCreate_ok hr.wf hget
      refine ⟨hb.wf, ?_⟩
      rintro t ht
      cases ht
      exact hb.mem
    · rename_i r err hget
      obtain ⟨hst, _, _⟩ := getOrCreate_error hget
      refine ⟨hst ▸ hr.wf, fun slot hs => ?_⟩
      cases hs
  · refine ⟨h, fun slot hs => ?_⟩
    cases hs

theorem openChat_wf (cfg : ServerSettings) (ctx : Context L) (body : ChatRequest) (user : Str)
    (h : st.Wf) : (openChat cfg st ctx body user).1.1.Wf ∧
    ∀ slot, (openChat cfg st ctx body user).2 = .ok (some slot) →
      slot ∈ (openChat cfg st ctx body user).1.1.slots := by
  simp only [openChat]
  split
  · refine ⟨h, fun slot hs => ?_⟩
    cases hs
  · rename_i id _
    obtain ⟨hwf, hmem⟩ := bindConversation_wf cfg ctx id body.clearConversation user h
    split
    · refine ⟨hwf, fun slot hs => ?_⟩
      cases hs
    · refine ⟨hwf, fun slot hs => hmem slot ?_⟩
      exact Except.ok.inj hs

theorem tenantStep_wf {a : ChatRequest × Str} {x y : SessionStore × Context L}
    (hs : TenantStep cfg x a y) (h : x.1.Wf) : y.1.Wf := by
  cases hs with
  | @refused st ctx body user r err ho =>
    have := (openChat_wf cfg ctx body user h).1
    rwa [ho] at this
  | @served st ctx body user r slot slot' ctx' ho hsame =>
    obtain ⟨hwf, hmem⟩ := openChat_wf cfg ctx body user h
    rw [ho] at hwf hmem
    exact wf_put_of_mem hwf (hmem _ rfl) hsame.1 hsame.2.2
  | @stateless st ctx body user r ctx' ho =>
    have := (openChat_wf cfg ctx body user h).1
    rwa [ho] at this

theorem tenant_wf (h : (tenantSystem L cfg).Reachable (st, ctx)) : st.Wf := by
  apply h.invariant (P := fun x => x.1.Wf)
  · intro x hx
    exact wf_nil hx
  · intro x a y hwf hs
    exact tenantStep_wf hs hwf

/-- A request in API mode either never reaches `get_or_create` or is decided by it. -/
theorem openChat_cases (cfg : ServerSettings) (st : SessionStore) (ctx : Context L)
    (body : ChatRequest) (user : Str) (hapi : cfg.apiEnabled = true) (hu : user ≠ []) :
    ((openChat cfg st ctx body user).1 = (st, ctx) ∧
        (∀ slot, (openChat cfg st ctx body user).2 ≠ .ok (some slot)) ∧
        ∀ owner, ¬ClearsForeign cfg st body user owner) ∨
      ∃ id r, Binds cfg body user id ∧
        (∀ owner, ClearsForeign cfg st body user owner ↔ body.clearConversation = true ∧
          ∃ s ∈ st.slots, s.id = id ∧ s.owner = owner) ∧
        r = clearedFirst st ctx id body.clearConversation ∧
        ((∃ r' slot, r.1.getOrCreate r.2 id user = (r', .ok slot) ∧
            openChat cfg st ctx body user = (r', .ok (some slot))) ∨
          ∃ r' err, r.1.getOrCreate r.2 id user = (r', .error err) ∧
            openChat cfg st ctx body user =
              (r', .error ⟨403, "conversation owned by another user"⟩)) := by
  have hmode : (cfg.apiEnabled && decide (user ≠ [])) = true := by simp [hapi, hu]
  simp only [openChat, hmode]
  cases hres : resolveConversationId cfg.requireChatId body user true with
  | error err =>
    refine Or.inl ⟨rfl, ?_, ?_⟩
    · intro slot hs
      cases hs
    · rintro owner ⟨_, id, ⟨_, _, _, hid⟩, _⟩
      rw [hres] at hid
      cases hid
  | ok id =>
    by_cases hwant : cfg.sessionsEnabled ∧ id ≠ [] ∧ cfg.mtpK = 0
    · right
      have hbinds : Binds cfg body user id := ⟨hwant.1, hwant.2.2, hwant.2.1, hres⟩
      refine ⟨id, _, hbinds, ?_, rfl, ?_⟩
      · intro owner
        constructor
        · rintro ⟨hclear, id', ⟨_, _, _, hid'⟩, hslot⟩
          rw [hres] at hid'
          cases hid'
          exact ⟨hclear, hslot⟩
        · rintro ⟨hclear, hslot⟩
          exact ⟨hclear, id, hbinds, hslot⟩
      · simp only [bindConversation, if_pos hwant]
        cases hget : (clearedFirst st ctx id body.clearConversation).1.getOrCreate
            (clearedFirst st ctx id body.clearConversation).2 id user with
        | mk r' res =>
          cases res with
          | ok slot => exact Or.inl ⟨r', slot, rfl, by simp⟩
          | error err => exact Or.inr ⟨r', err, rfl, by simp [hwant.2.1]⟩
    · left
      simp only [bindConversation, if_neg hwant]
      refine ⟨?_, ?_, ?_⟩
      · split <;> rfl
      · intro slot
        split
        · intro hs
          cases hs
        · intro hs
          cases hs
      · rintro owner ⟨_, id', ⟨hen, hmtp, hne, hid'⟩, _⟩
        rw [hres] at hid'
        cases hid'
        exact hwant ⟨hen, hne, hmtp⟩

end Bind

section Isolation

theorem getOrCreate_foreign (hf : st.find id = some s) (hu : user ≠ []) (hs : s.owner ≠ [])
    (hne : s.owner ≠ user) :
    st.getOrCreate ctx id user = ((st, ctx), .error .ownerMismatch) := by
  simp only [getOrCreate, hf]
  rw [if_pos ⟨hu, hs, hne⟩]

/-- The rest of a request touches no slot but its own. -/
theorem kept_of_tenantStep {r : SessionStore × Context L}
    (hs : TenantStep cfg (st, ctx) (body, user) r)
    (hret : ∀ t, (openChat cfg st ctx body user).2 = .ok (some t) → t.id ≠ s.id)
    (hmem : s ∈ (openChat cfg st ctx body user).1.1.slots) : s ∈ r.1.slots := by
  cases hs with
  | refused ho =>
    rw [ho] at hmem
    exact hmem
  | served ho hsame =>
    rw [ho] at hmem hret
    refine mem_put.mpr (Or.inr ⟨hmem, ?_⟩)
    rw [hsame.1]
    exact (hret _ rfl).symm
  | stateless ho =>
    rw [ho] at hmem
    exact hmem

/-- A request that is not bound to a slot and leaves the store as it is. -/
theorem spares_of_unchanged (h : st.Wf) (hs : s ∈ st.slots)
    (hsame : (openChat cfg st ctx body user).1 = (st, ctx))
    (hret : ∀ t, (openChat cfg st ctx body user).2 ≠ .ok (some t)) :
    Spares cfg st ctx body user s := by
  have hunret : ∀ t, (openChat cfg st ctx body user).2 = .ok (some t) → t.id ≠ s.id :=
    fun t ht => (hret t ht).elim
  refine ⟨hunret, ?_, ?_, fun r hr hmem => kept_of_tenantStep hr hunret hmem⟩
  · rw [hsame]
    exact fun t ht hid => ⟨h.eq_of_id ht hs hid, fun _ _ => rfl⟩
  · rw [hsame]
    exact Or.inl hs

/-- `get_or_create` leaves the slots of other users alone but for the evictions. -/
theorem spares_of_getOrCreate {r : SessionStore × Context L} (h : st.Wf)
    (hu : user ≠ []) (hown : s.owner ≠ []) (hne : s.owner ≠ user)
    (hbinds : Binds cfg body user id)
    (hr : r = clearedFirst st ctx id body.clearConversation) (hkept : s ∈ r.1.slots)
    (hcall : (∃ r' slot, r.1.getOrCreate r.2 id user = (r', .ok slot) ∧
        openChat cfg st ctx body user = (r', .ok (some slot))) ∨
      ∃ r' err reply, r.1.getOrCreate r.2 id user = (r', .error err) ∧
        openChat cfg st ctx body user = (r', .error reply)) :
    Spares cfg st ctx body user s := by
  have hsheds : Sheds st ctx r.1 r.2 := hr ▸ sheds_clearedFirst h
  rcases hcall with ⟨r', slot, hget, ho⟩ | ⟨r', err, reply, hget, ho⟩
  · have hid : s.id ≠ id := by
      intro hid
      rw [getOrCreate_foreign (hsheds.wf.find_iff.mpr ⟨hkept, hid⟩) hu hown hne] at hget
      cases hget
    have hb := getOrCreate_ok hsheds.wf hget
    have hunret : ∀ t, (openChat cfg st ctx body user).2 = .ok (some t) → t.id ≠ s.id := by
      intro t ht
      rw [ho] at ht
      cases ht
      rw [hb.id_eq]
      exact hid.symm
    refine ⟨hunret, ?_, ?_, fun r hr hmem => kept_of_tenantStep hr hunret hmem⟩
    · rw [ho]
      intro t ht htid
      obtain ⟨hold, hlanes⟩ := hb.others t ht (htid ▸ hid)
      refine ⟨hsheds.wf.eq_of_id hold hkept htid, ?_⟩
      intro l hl
      rw [hlanes l hl, hsheds.lanes t hold l hl]
    · rw [ho]
      rcases getOrCreate_kept hsheds.wf hkept hid hget with hin | hvictim
      · exact Or.inl hin
      · exact Or.inr ⟨id, r, hbinds, hr, hkept, hvictim⟩
  · obtain ⟨hst, hctx, _⟩ := getOrCreate_error hget
    have hunret : ∀ t, (openChat cfg st ctx body user).2 = .ok (some t) → t.id ≠ s.id := by
      intro t ht
      rw [ho] at ht
      cases ht
    refine ⟨hunret, ?_, ?_, fun r hr hmem => kept_of_tenantStep hr hunret hmem⟩
    · rw [ho, hst, hctx]
      intro t ht htid
      exact ⟨hsheds.wf.eq_of_id ht hkept htid, fun l hl => hsheds.lanes t ht l hl⟩
    · rw [ho, hst]
      exact Or.inl hkept

/-- In API mode a request of one user leaves every slot of another alone, capacity evictions
apart, exactly when it does not clear a conversation that resolves to such a slot. -/
theorem spares_iff_not_clearsForeign (cfg : ServerSettings) (st : SessionStore) (ctx : Context L)
    (body : ChatRequest) (user owner : Str) (hapi : cfg.apiEnabled = true) (hu : user ≠ [])
    (ho : owner ≠ []) (hne : owner ≠ user) (h : (tenantSystem L cfg).Reachable (st, ctx)) :
    (∀ s ∈ st.slots, s.owner = owner → Spares cfg st ctx body user s) ↔
      ¬ClearsForeign cfg st body user owner := by
  have hwf := tenant_wf h
  rcases openChat_cases cfg st ctx body user hapi hu with
    ⟨hsame, hret, hclears⟩ | ⟨id, r, hbinds, hclears, hr, hcall⟩
  · exact iff_of_true (fun s hs _ => spares_of_unchanged hwf hs hsame hret) (hclears owner)
  · rw [hclears owner]
    constructor
    · rintro hall ⟨hclear, s, hs, hid, hsown⟩
      have hspares := hall s hs hsown
      have hgone : ∀ t ∈ r.1.slots, t.id ≠ id := by
        intro t ht
        rw [hr, mem_clearedFirst] at ht
        exact ht.2 hclear
      rcases hcall with ⟨r', slot, hget, hopen⟩ | ⟨r', err, hget, _⟩
      · have hb := getOrCreate_ok (hr ▸ (sheds_clearedFirst hwf).wf) hget
        exact hspares.unreturned slot (by rw [hopen]) (hb.id_eq.trans hid.symm)
      · obtain ⟨_, _, t, ht, _⟩ := getOrCreate_error hget
        exact hgone t (find_some ht).1 (find_some ht).2
    · intro hno s hs hsown
      have hkept : s ∈ r.1.slots := by
        rw [hr, mem_clearedFirst]
        refine ⟨hs, fun hclear hid => hno ⟨hclear, s, hs, hid, hsown⟩⟩
      apply spares_of_getOrCreate hwf hu (hsown ▸ ho) (hsown ▸ hne) hbinds hr hkept
      exact hcall.imp_right fun ⟨r', err, hget, hopen⟩ => ⟨r', err, _, hget, hopen⟩

/-- A server in API mode with sessions on. -/
def apiSettings : ServerSettings := ⟨true, false, true, 0⟩

/-- The slot of user `a:b` for its chat `c`. -/
def colonSlot : SessionSlot := ⟨[97, 58, 98, 58, 99], [97, 58, 98], [], some 0, 1⟩

def emptyStore : SessionStore := { maxSlots := 4, maxSlots_pos := by decide }

def openedStore : (SessionStore × Context Unit) × Except HttpError (Option SessionSlot) :=
  openChat apiSettings emptyStore {} { chatId := some [99] } [97, 58, 98]

def colonStore : SessionStore := openedStore.1.1.put colonSlot

theorem colonStore_reachable :
    (tenantSystem Unit apiSettings).Reachable (colonStore, ({} : Context Unit)) := by
  have hopen : openChat apiSettings emptyStore {} { chatId := some [99] } [97, 58, 98] =
      (openedStore.1, .ok (some colonSlot)) := by rfl
  have hstart : (tenantSystem Unit apiSettings).start (emptyStore, ({} : Context Unit)) := rfl
  exact .step (.start hstart) (.served hopen ⟨rfl, rfl, rfl⟩)

theorem colonSlot_mem : colonSlot ∈ colonStore.slots := by decide

/-- User `a` clears its own chat `b`. -/
theorem spares_iff_not_clearsForeign_own : Spares apiSettings colonStore ({} : Context Unit)
    { chatId := some [98], clearConversation := true } [97] colonSlot := by
  apply (spares_iff_not_clearsForeign apiSettings colonStore {}
    { chatId := some [98], clearConversation := true } [97] [97, 58, 98] rfl (by decide)
    (by decide) (by decide) colonStore_reachable).mpr _ colonSlot colonSlot_mem rfl
  rintro ⟨_, id, ⟨_, _, _, hid⟩, s, hs, hsid, _⟩
  have hne : ∀ s ∈ colonStore.slots, s.id ≠ makeConversationId [97] [98] := by decide
  cases hid
  exact hne s hs hsid

/-- User `a` clears its chat `b:c`, which is the chat `c` of user `a:b`. -/
theorem not_spares : ¬∀ (cfg : ServerSettings) (st : SessionStore) (ctx : Context Unit)
    (body : ChatRequest) (user owner : Str), cfg.apiEnabled = true → user ≠ [] → owner ≠ [] →
    owner ≠ user → (tenantSystem Unit cfg).Reachable (st, ctx) →
    ∀ s ∈ st.slots, s.owner = owner → Spares cfg st ctx body user s := by
  intro h
  have hspares := h apiSettings colonStore {}
    { chatId := some [98, 58, 99], clearConversation := true } [97] [97, 58, 98] rfl (by decide)
    (by decide) (by decide) colonStore_reachable colonSlot colonSlot_mem rfl
  have hreply : (openChat apiSettings colonStore ({} : Context Unit)
      { chatId := some [98, 58, 99], clearConversation := true } [97]).2 =
      .ok (some ⟨[97, 58, 98, 58, 99], [97], [], some 0, 2⟩) := by rfl
  exact hspares.unreturned _ hreply rfl

end Isolation

section Labels

/-- The id of an owned slot starts with its owner and a colon. -/
def Labelled (st : SessionStore) : Prop :=
  ∀ s ∈ st.slots, s.owner ≠ [] → s.owner ++ [58] <+: s.id

theorem resolve_labelled {requireChatId : Bool}
    (h : resolveConversationId requireChatId body user true = .ok id) (hid : id ≠ []) :
    user ++ [58] <+: id := by
  simp only [resolveConversationId, not_true_eq_false, if_false] at h
  split at h
  · cases h
  · split at h
    · cases h
      exact List.prefix_append _ _
    · split at h
      · split at h
        · rename_i howned
          cases h
          unfold conversationOwnedBy at howned
          split at howned
          · cases howned
          · simp only [Bool.and_eq_true, decide_eq_true_eq] at howned
            rw [← howned.2]
            exact List.take_prefix _ _
        · cases h
      · split at h
        · cases h
        · cases h
          exact (hid rfl).elim

theorem eq_of_colonless {u v : Str} (hu : (58 : UInt8) ∉ u) (hv : (58 : UInt8) ∉ v)
    (h : u ++ [58] <+: id) (h' : v ++ [58] <+: id) : u = v := by
  have hle : ∀ {u v : Str}, (58 : UInt8) ∉ v → u ++ [58] <+: id → v ++ [58] <+: id →
      v.length ≤ u.length := by
    intro u v hv h h'
    by_contra hlt
    rw [not_le] at hlt
    have hpre : u ++ [58] <+: v :=
      List.prefix_of_prefix_length_le h ((List.prefix_append _ _).trans h') (by simpa using hlt)
    exact hv (hpre.subset (by simp))
  have hlen : (u ++ [58]).length = (v ++ [58]).length := by
    simpa using le_antisymm (hle hu h' h) (hle hv h h')
  have hpre := List.prefix_of_prefix_length_le h h' hlen.le
  exact List.append_cancel_right (hpre.eq_of_length hlen)

theorem labelled_of_bound (h : Labelled st) (hid : owner ≠ [] → owner ++ [58] <+: id)
    (hb : Bound st ctx id owner st' ctx' slot) : Labelled st' := by
  intro t ht hne
  by_cases htid : t.id = id
  · obtain rfl : t = slot := hb.wf.eq_of_id ht hb.mem (htid.trans hb.id_eq.symm)
    rcases hb.origin with ⟨s, hs, hsid, _, _, _, hown | ⟨_, hown⟩⟩ | ⟨_, _, hown⟩
    · rw [hown] at hne ⊢
      rw [htid, ← hsid]
      exact h s hs hne
    · rw [hown] at hne ⊢
      rw [htid]
      exact hid hne
    · rw [hown] at hne ⊢
      rw [htid]
      exact hid hne
  · exact h t (hb.others t ht htid).1 hne

theorem openChat_labelled (ctx : Context L) (body : ChatRequest) (user : Str)
    (hapi : cfg.apiEnabled = true) (hwf : st.Wf) (h : Labelled st) :
    Labelled (openChat cfg st ctx body user).1.1 := by
  simp only [openChat, hapi, Bool.true_and]
  split
  · exact h
  · rename_i id hres
    have hbind : Labelled
        (bindConversation cfg st ctx id body.clearConversation user).1.1 := by
      have hr : Sheds st ctx (clearedFirst st ctx id body.clearConversation).1
        (clearedFirst st ctx id body.clearConversation).2 := sheds_clearedFirst hwf
      have hcleared : Labelled (clearedFirst st ctx id body.clearConversation).1 :=
        fun t ht => h t (hr.subset t ht)
      simp only [bindConversation]
      split
      · rename_i hwant
        split
        · rename_i r slot hget
          apply labelled_of_bound hcleared _ (getOrCreate_ok hr.wf hget)
          intro hu
          rw [decide_eq_true hu] at hres
          exact resolve_labelled hres hwant.2.1
        · rename_i r err hget
          rw [(getOrCreate_error hget).1]
          exact hcleared
      · exact h
    split
    · exact hbind
    · exact hbind

theorem labelled_put (h : Labelled st) (hs : slot ∈ st.slots) (hsame : SameSlot slot s) :
    Labelled (st.put s) := by
  intro t ht hne
  rcases mem_put.mp ht with rfl | ⟨ht, _⟩
  · rw [hsame.2.1] at hne ⊢
    rw [hsame.1]
    exact h slot hs hne
  · exact h t ht hne

theorem tenant_labelled (hapi : cfg.apiEnabled = true)
    (h : (tenantSystem L cfg).Reachable (st, ctx)) : Labelled st := by
  have hinv : st.Wf ∧ Labelled st := by
    apply h.invariant (P := fun x => x.1.Wf ∧ Labelled x.1)
    · intro x hx
      refine ⟨wf_nil hx, fun s hs => ?_⟩
      rw [show x.1.slots = [] from hx] at hs
      cases hs
    · rintro x a y ⟨hwf, hlab⟩ hs
      refine ⟨tenantStep_wf hs hwf, ?_⟩
      cases hs with
      | @refused st ctx body user r err ho =>
        have := openChat_labelled ctx body user hapi hwf hlab
        rwa [ho] at this
      | @served st ctx body user r slot slot' ctx' ho hsame =>
        have hmem := (openChat_wf cfg ctx body user hwf).2
        have := openChat_labelled ctx body user hapi hwf hlab
        rw [ho] at this hmem
        exact labelled_put this (hmem _ rfl) hsame
      | @stateless st ctx body user r ctx' ho =>
        have := openChat_labelled ctx body user hapi hwf hlab
        rwa [ho] at this
  exact hinv.2

/-- No request of a user clears a conversation of another if neither id has a colon. -/
theorem not_clearsForeign_of_colonless (hapi : cfg.apiEnabled = true) (ho : owner ≠ [])
    (hne : owner ≠ user) (h : (tenantSystem L cfg).Reachable (st, ctx))
    (huser : (58 : UInt8) ∉ user) (howner : (58 : UInt8) ∉ owner) :
    ¬ClearsForeign cfg st body user owner := by
  rintro ⟨_, id, ⟨_, _, hid, hres⟩, s, hs, rfl, rfl⟩
  exact hne (eq_of_colonless howner huser (tenant_labelled hapi h s hs ho)
    (resolve_labelled hres hid))

end Labels

end NotreEngine.Session
