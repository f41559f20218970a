import NotreEngine.Gateway.Proxy
import NotreEngine.Gateway.RateLimit
import NotreEngine.Server.Keys

/-!
# Requests by their keys

The handlers of `POST /v1/chat/completions` up to `handle_chat`, which they run one at a time but in
any order, and what is left of the keys they were sent with in the store and in the rate.

A handler and the generation it waits for are one step here, from the lock on the generation mutex
to its release: the store is what its request leaves. How the handler and the engine thread take
that step together is the matter of `Session.Serving`.
-/

namespace NotreEngine.Server

open Gguf (text)
open Config (Json)
open Gateway (EngineLimiter Members stringField)
open Session SessionStore
open Transition

section Model

variable {F L : Type}

/-- A request with the time at which the limiter is asked about it. -/
structure Post (F : Type) where
  arrived : List (Str × Str)
  /-- The headers in the order in which the map of `collect_headers` is visited. -/
  visited : List (Str × Str)
  visits : visited.Perm (collectHeaders arrived)
  /-- None if it is not JSON. -/
  body : Option (Json F)
  now : Int

/-- What `handle_chat` reads of a request to find its slot. -/
def chatOf (arrived : List (Str × Str)) (body : Members F) : ChatRequest where
  chatId := stringField body (text "chat_id")
  conversationId := stringField body (text "conversation_id")
  convHdr := headerGet arrived (text "X-Conversation-Id")
  clearConversation :=
    match Assoc.find body (text "clear_conversation") with
    | some (.boolean b) => b
    | _ => false

def messagesOf (body : Option (Json F)) : Except HttpError (Members F) :=
  match body with
  | none => .error ⟨400, "invalid JSON body"⟩
  | some (.object m) =>
    match Assoc.find m (text "messages") with
    | some (.array (_ :: _)) => .ok m
    | _ => .error ⟨400, "'messages' must be a non-empty array"⟩
  | some _ => .error ⟨400, "'messages' must be a non-empty array"⟩

/-- The handler up to `handle_chat`: its arguments, and the limiter afterwards. -/
def admitPost (apiEnabled : Bool) (t : Keys) (limiter : EngineLimiter) (p : Post F) :
    Except HttpError (ChatRequest × Str) × EngineLimiter :=
  match messagesOf p.body with
  | .error err => (.error err, limiter)
  | .ok m =>
    if apiEnabled then
      match authenticate true t p.visited with
      | .error err => (.error err, limiter)
      | .ok user =>
        let (allowed, limiter) := limiter.allow user p.now
        if allowed then (.ok (chatOf p.arrived m, user), limiter)
        else (.error ⟨429, "rate limit exceeded (requests per minute)"⟩, limiter)
    else (.ok (chatOf p.arrived m, []), limiter)

/-- The handlers that wait for `gen_mutex`, and what they share. -/
structure Front (L : Type) where
  limiter : EngineLimiter
  pending : List (ChatRequest × Str) := []
  store : SessionStore × Context L

inductive Event (F : Type) where
  | post (p : Post F)
  | handle (q : ChatRequest × Str)

/-- A handler may also end before it comes to a slot, where the prompt does not fit. -/
inductive FrontStep (cfg : ServerSettings) (t : Keys) : Front L → Event F → Front L → Prop
  | refused {s p err limiter} :
      admitPost cfg.apiEnabled t s.limiter p = (.error err, limiter) →
      FrontStep cfg t s (.post p) { s with limiter := limiter }
  | admitted {s p q limiter} :
      admitPost cfg.apiEnabled t s.limiter p = (.ok q, limiter) →
      FrontStep cfg t s (.post p) { s with limiter := limiter, pending := q :: s.pending }
  | ended {s q pre post} : s.pending = pre ++ q :: post →
      FrontStep cfg t s (.handle q) { s with pending := pre ++ post }
  | served {s q r pre post} : s.pending = pre ++ q :: post → TenantStep cfg s.store q r →
      FrontStep cfg t s (.handle q) { s with pending := pre ++ post, store := r }

/-- From a fresh limiter and an empty store. -/
def frontSystem (F L : Type) (cfg : ServerSettings) (t : Keys) (rpm : Int) :
    System (Front L) (Event F) where
  start s := s.limiter = { rpm := rpm } ∧ s.pending = [] ∧ s.store.1.slots = []
  step := FrontStep cfg t

/-- The requests of a run. -/
def posts (tr : List (Event F × Front L)) : List (Post F) :=
  tr.filterMap fun x =>
    match x.1 with
    | .post p => some p
    | .handle _ => none

/-- The request is one of the user's for the chat it hands on: its key is known, and is the user's
or one that may speak for anyone and is sent with the name of the user. -/
def SpeaksFor (t : Keys) (p : Post F) (q : ChatRequest × Str) : Prop :=
  (∃ m, messagesOf p.body = .ok m ∧ q.1 = chatOf p.arrived m) ∧
    ∃ w, headerGet p.visited (text "Authorization") = text "Bearer " ++ w ∧
      trimWs w ∈ t.keys ∧ q.2 ≠ [] ∧
      (t.keyToUser (trimWs w) = some q.2 ∨
        t.keyToUser (trimWs w) = none ∧ q.2 = trimWs (headerGet p.visited (text "X-User-Id")))

end Model

section Writes

variable {F L : Type} {cfg : ServerSettings} {t : Keys} {rpm : Int} {limiter limiter' : EngineLimiter}
  {p : Post F} {q : ChatRequest × Str} {st st' : SessionStore} {ctx ctx' : Context L}
  {body : ChatRequest} {user id : Str} {slot s : SessionSlot} {x y : Front L}
  {tr : List (Event F × Front L)}

theorem admitPost_ok (h : admitPost true t limiter p = (.ok q, limiter')) : SpeaksFor t p q := by
  unfold admitPost at h
  cases hm : messagesOf p.body with
  | error err =>
    rw [hm] at h
    cases h
  | ok m =>
    simp only [hm, if_true] at h
    cases ha : authenticate true t p.visited with
    | error err =>
      rw [ha] at h
      cases h
    | ok u =>
      simp only [ha] at h
      split at h
      · cases h
        exact ⟨⟨m, hm, rfl⟩, authenticate_ok ha⟩
      · cases h

theorem getOrCreate_owner (hu : user ≠ [])
    (hg : st.getOrCreate ctx id user = ((st', ctx'), .ok slot)) : slot.owner = user := by
  cases hf : st.find id with
  | none =>
    simp only [SessionStore.getOrCreate, hf] at hg
    cases hg
    rfl
  | some s =>
    simp only [SessionStore.getOrCreate, hf] at hg
    split at hg
    · cases hg
    · rename_i hmine
      by_cases hown : s.owner = []
      · simp only [hu, hown, ne_eq, not_false_eq_true, and_self, if_true] at hg
        cases hg
        rfl
      · simp only [hown, and_false, if_false] at hg
        cases hg
        by_contra hne
        exact hmine ⟨hu, hown, hne⟩

/-- A handler in API mode changes no slots but that of the conversation it resolves, which is the
user's afterwards. -/
theorem tenantStep_writes {r : SessionStore × Context L} (hapi : cfg.apiEnabled = true)
    (hu : user ≠ []) (hwf : st.Wf) (hs : TenantStep cfg (st, ctx) (body, user) r) :
    ∀ s ∈ r.1.slots, s ∈ st.slots ∨
      s.owner = user ∧ resolveConversationId cfg.requireChatId body user true = .ok s.id := by
  rcases openChat_cases cfg st ctx body user hapi hu with
    ⟨hsame, hret, -⟩ | ⟨id, r', hbinds, -, hr, ⟨o, slot, hget, ho⟩ | ⟨o, err, hget, ho⟩⟩
  · cases hs with
    | refused hopen =>
      rw [hopen] at hsame
      obtain rfl : r = (st, ctx) := hsame
      exact fun s hmem => Or.inl hmem
    | served hopen _ =>
      rw [hopen] at hret
      exact absurd rfl (hret _)
    | @stateless _ _ _ _ r' _ hopen =>
      rw [hopen] at hsame
      obtain rfl : r' = (st, ctx) := hsame
      exact fun s hmem => Or.inl hmem
  · have hsheds : Sheds st ctx r'.1 r'.2 := hr ▸ sheds_clearedFirst hwf
    have hb : Bound r'.1 r'.2 id user o.1 o.2 slot := getOrCreate_ok hsheds.wf hget
    have hown : slot.owner = user := getOrCreate_owner hu hget
    have hold : ∀ s ∈ o.1.slots, s.id ≠ id → s ∈ st.slots :=
      fun s hmem hne => hsheds.subset s (hb.others s hmem hne).1
    cases hs with
    | refused hopen =>
      rw [ho] at hopen
      cases hopen
    | @served _ _ _ _ _ _ slot' _ hopen hsame =>
      rw [ho] at hopen
      cases hopen
      intro s hmem
      rcases SessionStore.mem_put.mp hmem with rfl | ⟨hmem, hne⟩
      · refine Or.inr ⟨hsame.2.1.trans hown, ?_⟩
        rw [hsame.1, hb.id_eq]
        exact hbinds.2.2.2
      · rw [hsame.1, hb.id_eq] at hne
        exact Or.inl (hold s hmem hne)
    | stateless hopen =>
      rw [ho] at hopen
      cases hopen
  · obtain ⟨hst, -, -⟩ := getOrCreate_error hget
    have hsheds : Sheds st ctx r'.1 r'.2 := hr ▸ sheds_clearedFirst hwf
    cases hs with
    | refused hopen =>
      rw [ho] at hopen
      cases hopen
      exact fun s hmem => Or.inl (hsheds.subset s (hst ▸ hmem))
    | served hopen _ =>
      rw [ho] at hopen
      cases hopen
    | stateless hopen =>
      rw [ho] at hopen
      cases hopen

/-- What holds of the front after some events. -/
structure Kept (t : Keys) (past : List (Event F)) (x : Front L) : Prop where
  wf : x.store.1.Wf
  pending : ∀ q ∈ x.pending, ∃ p, Event.post p ∈ past ∧ SpeaksFor t p q

/-- A step that leaves a slot as it was not is that of a handler, for a request whose key speaks for
the owner of the slot. -/
def Entitled (cfg : ServerSettings) (t : Keys) (past : List (Event F)) (x : Front L) (a : Event F)
    (y : Front L) : Prop :=
  ∀ s ∈ y.store.1.slots, s ∉ x.store.1.slots →
    ∃ q p, a = .handle q ∧ Event.post p ∈ past ∧ SpeaksFor t p q ∧ s.owner = q.2 ∧
      resolveConversationId cfg.requireChatId q.1 q.2 true = .ok s.id

theorem frontStep_kept {past : List (Event F)} {a : Event F} (hapi : cfg.apiEnabled = true)
    (h : Kept t past x) (hs : FrontStep cfg t x a y) :
    Kept t (past ++ [a]) y ∧ Entitled cfg t past x a y := by
  have hold : ∀ q ∈ x.pending, ∃ p, Event.post p ∈ past ++ [a] ∧ SpeaksFor t p q := by
    intro q hq
    obtain ⟨p, hp, hspeaks⟩ := h.pending q hq
    exact ⟨p, List.mem_append_left _ hp, hspeaks⟩
  have hless : ∀ {q pre post}, x.pending = pre ++ q :: post → ∀ q' ∈ pre ++ post,
      q' ∈ x.pending := by
    intro q pre post hp q' hq'
    rw [hp]
    exact List.mem_append.mpr ((List.mem_append.mp hq').imp_right (List.mem_cons_of_mem _))
  cases hs with
  | refused hadmit => exact ⟨⟨h.wf, hold⟩, fun s hmem hne => absurd hmem hne⟩
  | @admitted p q limiter hadmit =>
    refine ⟨⟨h.wf, ?_⟩, fun s hmem hne => absurd hmem hne⟩
    intro q' hq'
    rcases List.mem_cons.mp hq' with rfl | hq'
    · rw [hapi] at hadmit
      exact ⟨p, List.mem_append_right _ (List.mem_singleton.mpr rfl), admitPost_ok hadmit⟩
    · exact hold q' hq'
  | ended hp =>
    exact ⟨⟨h.wf, fun q' hq' => hold q' (hless hp q' hq')⟩, fun s hmem hne => absurd hmem hne⟩
  | @served q r pre post hp htenant =>
    have hmem : q ∈ x.pending := by
      rw [hp]
      exact List.mem_append_right _ List.mem_cons_self
    obtain ⟨p, hpost, hspeaks⟩ := h.pending q hmem
    obtain ⟨w, -, -, hu, -⟩ := hspeaks.2
    refine ⟨⟨tenantStep_wf htenant h.wf, fun q' hq' => hold q' (hless hp q' hq')⟩, ?_⟩
    intro s hs hnew
    have hwrites := tenantStep_writes hapi hu h.wf htenant s hs
    obtain ⟨hown, hres⟩ := hwrites.resolve_left hnew
    exact ⟨q, p, rfl, hpost, hspeaks, hown, hres⟩

theorem trace_kept {past : List (Event F)} (hapi : cfg.apiEnabled = true)
    (htrace : (frontSystem F L cfg t rpm).Trace x tr) (h : Kept t past x) :
    ∀ pre a y post, tr = pre ++ (a, y) :: post →
      Entitled cfg t (past ++ pre.map Prod.fst) (final x pre) a y := by
  induction htrace generalizing past with
  | nil =>
    intro pre a y post hsplit
    exact absurd hsplit (List.append_ne_nil_of_right_ne_nil _ (List.cons_ne_nil _ _)).symm
  | @cons x b z tr hstep htrace ih =>
    obtain ⟨hkept, hentitled⟩ := frontStep_kept hapi h hstep
    intro pre a y post hsplit
    cases pre with
    | nil =>
      cases hsplit
      simpa [final] using hentitled
    | cons e pre =>
      obtain ⟨rfl, htail⟩ := List.cons.inj hsplit
      have := ih hkept pre a y post htail
      simpa [final] using this

/-- In API mode, whatever requests arrive and in whatever order their handlers run: every slot that
a step creates or changes is that of the conversation that a request before it asks for, under the
user for whom the key of that request speaks. -/
theorem writes_entitled (hapi : cfg.apiEnabled = true) (t : Keys) (rpm : Int)
    (hstart : (frontSystem F L cfg t rpm).start x)
    (htrace : (frontSystem F L cfg t rpm).Trace x tr) (pre post : List (Event F × Front L))
    (a : Event F) (y : Front L) (hsplit : tr = pre ++ (a, y) :: post) (s : SessionSlot)
    (hs : s ∈ y.store.1.slots) (hnew : s ∉ (final x pre).store.1.slots) :
    ∃ q, ∃ p ∈ posts pre, a = .handle q ∧ SpeaksFor t p q ∧ s.owner = q.2 ∧
      resolveConversationId cfg.requireChatId q.1 q.2 true = .ok s.id := by
  obtain ⟨-, hpending, hslots⟩ := hstart
  have hkept : Kept t ([] : List (Event F)) x := by
    refine ⟨wf_nil hslots, ?_⟩
    rw [hpending]
    exact fun q hq => absurd hq List.not_mem_nil
  obtain ⟨q, p, ha, hp, hspeaks, hown, hres⟩ :=
    trace_kept hapi htrace hkept pre a y post hsplit s hs hnew
  refine ⟨q, p, ?_, ha, hspeaks, hown, hres⟩
  obtain ⟨e, he, heq⟩ := List.mem_map.mp hp
  refine List.mem_filterMap.mpr ⟨e, he, ?_⟩
  rw [heq]

/-- A request of the user `a:b` for its chat `c`. -/
def colonPost : Post Unit where
  arrived := [(text "authorization", text "Bearer k"), (text "X-User-Id", text " a:b")]
  visited := [(text "authorization", text "Bearer k"), (text "X-User-Id", text " a:b")]
  visits := List.Perm.refl _
  body := some (.object [(text "messages", .array [.null]), (text "chat_id", .string (text "c"))])
  now := 0

def openKeys : Keys := { keys := {text "k"} }

def idleFront : Front Unit := ⟨{ rpm := 1 }, [], (emptyStore, {})⟩

/-- The front after the limiter has let the request pass. -/
def waitingFront : Front Unit :=
  ⟨(admitPost true openKeys { rpm := 1 } colonPost).2, [({ chatId := some [99] }, [97, 58, 98])],
    (emptyStore, {})⟩

def servedFront : Front Unit := ⟨waitingFront.limiter, [], (colonStore, {})⟩

def colonRun : List (Event Unit × Front Unit) :=
  [(.post colonPost, waitingFront),
    (.handle ({ chatId := some [99] }, [97, 58, 98]), servedFront)]

theorem colonRun_trace :
    (frontSystem Unit Unit apiSettings openKeys 1).Trace idleFront colonRun := by
  have hadmit : admitPost true openKeys { rpm := 1 } colonPost =
      (.ok ({ chatId := some [99] }, [97, 58, 98]), waitingFront.limiter) := by rfl
  have hopen : openChat apiSettings emptyStore {} { chatId := some [99] } [97, 58, 98] =
      (openedStore.1, .ok (some colonSlot)) := by rfl
  have hpending : waitingFront.pending = [] ++ ({ chatId := some [99] }, [97, 58, 98]) :: [] := rfl
  exact .cons (.admitted hadmit)
    (.cons (.served hpending (.served hopen ⟨rfl, rfl, rfl⟩)) (.nil _))

theorem writes_entitled_colon :
    ∃ q, ∃ p ∈ [colonPost], Event.handle (F := Unit) ({ chatId := some [99] }, [97, 58, 98]) =
      .handle q ∧ SpeaksFor openKeys p q ∧ colonSlot.owner = q.2 ∧
      resolveConversationId false q.1 q.2 true = .ok colonSlot.id :=
  writes_entitled rfl openKeys 1 ⟨rfl, rfl, rfl⟩ colonRun_trace
    [(.post colonPost, waitingFront)] [] (.handle ({ chatId := some [99] }, [97, 58, 98]))
    servedFront rfl colonSlot colonSlot_mem List.not_mem_nil

end Writes

section Rate

variable {F L : Type} {cfg : ServerSettings} {t : Keys} {rpm : Int} {limiter limiter' : EngineLimiter}
  {p : Post F} {ps : List (Post F)} {q : ChatRequest × Str} {u : Str} {x y : Front L}
  {tr : List (Event F × Front L)}

/-- The key that a request shows. -/
def tokenOf (p : Post F) : Str :=
  trimWs ((headerGet p.visited (text "Authorization")).drop (text "Bearer ").length)

/-- The requests that the limiter lets pass, with their users. -/
def passes (t : Keys) : EngineLimiter → List (Post F) → List (Post F × Str)
  | _, [] => []
  | limiter, p :: ps =>
    match admitPost true t limiter p with
    | (.ok q, limiter) => (p, q.2) :: passes t limiter ps
    | (.error _, limiter) => passes t limiter ps

/-- The handlers of the user's requests that have run. -/
def handled (u : Str) (tr : List (Event F × Front L)) : Nat :=
  tr.countP fun x =>
    match x.1 with
    | .post _ => false
    | .handle q => q.2 = u

def waiting (u : Str) (x : Front L) : Nat := x.pending.countP fun q => q.2 = u

/-- What the limiter is asked. -/
def asked (t : Keys) (p : Post F) : Option (SlidingWindow.Call Str Int) :=
  match messagesOf p.body, authenticate true t p.visited with
  | .ok _, .ok u => some ⟨u, p.now⟩
  | _, _ => none

theorem admitPost_unasked (limiter : EngineLimiter) (h : asked t p = none) :
    ∃ err, admitPost true t limiter p = (.error err, limiter) := by
  unfold asked at h
  unfold admitPost
  cases hm : messagesOf p.body with
  | error err => exact ⟨err, rfl⟩
  | ok m =>
    cases ha : authenticate true t p.visited with
    | error err => exact ⟨err, by simp⟩
    | ok u =>
      rw [hm, ha] at h
      cases h

/-- The handler passes with the limiter. -/
theorem admitPost_asked {c : SlidingWindow.Call Str Int} (limiter : EngineLimiter)
    (h : asked t p = some c) :
    c.now = p.now ∧
      (((limiter.allow c.user c.now).1 = true ∧
          ∃ q, admitPost true t limiter p = (.ok q, (limiter.allow c.user c.now).2) ∧
            q.2 = c.user) ∨
        (limiter.allow c.user c.now).1 = false ∧
          ∃ err, admitPost true t limiter p = (.error err, (limiter.allow c.user c.now).2)) := by
  unfold asked at h
  unfold admitPost
  cases hm : messagesOf p.body with
  | error err =>
    rw [hm] at h
    cases h
  | ok m =>
    cases ha : authenticate true t p.visited with
    | error err =>
      rw [hm, ha] at h
      cases h
    | ok u =>
      rw [hm, ha] at h
      obtain rfl := Option.some.inj h
      refine ⟨rfl, ?_⟩
      cases hallow : (limiter.allow u p.now).1 with
      | true => exact Or.inl ⟨rfl, (chatOf p.arrived m, u), by simp [hallow], rfl⟩
      | false =>
        refine Or.inr ⟨rfl, ⟨429, "rate limit exceeded (requests per minute)"⟩, ?_⟩
        simp [hallow]

/-- Those that pass are the calls that the limiter allows. -/
theorem passes_eq (t : Keys) (limiter : EngineLimiter) (ps : List (Post F)) :
    (passes t limiter ps).map (fun a => (a.2, a.1.now)) =
      ((SlidingWindow.answers EngineLimiter.allow limiter (ps.filterMap (asked t))).filter
        fun a => a.allowed).map fun a => (a.user, a.now) := by
  induction ps generalizing limiter with
  | nil => rfl
  | cons p ps ih =>
    cases hask : asked t p with
    | none =>
      obtain ⟨err, herr⟩ := admitPost_unasked limiter hask
      rw [List.filterMap_cons_none hask, passes, herr]
      exact ih limiter
    | some c =>
      rw [List.filterMap_cons_some hask, SlidingWindow.answers]
      obtain ⟨hnow, ⟨hallow, q, hq, huser⟩ | ⟨hallow, err, herr⟩⟩ :=
        admitPost_asked limiter hask
      · rw [passes, hq, List.filter_cons_of_pos (by simpa using hallow), List.map_cons,
          List.map_cons, ih, huser, hnow]
      · rw [passes, herr, List.filter_cons_of_neg (by simpa using hallow)]
        exact ih _

theorem mem_passes {a : Post F × Str} (h : a ∈ passes t limiter ps) :
    a.1 ∈ ps ∧ authenticate true t a.1.visited = .ok a.2 := by
  induction ps generalizing limiter with
  | nil => cases h
  | cons p ps ih =>
    cases hask : asked t p with
    | none =>
      obtain ⟨err, herr⟩ := admitPost_unasked limiter hask
      rw [passes, herr] at h
      exact (ih h).imp_left (List.mem_cons_of_mem _)
    | some c =>
      obtain ⟨hnow, ⟨hallow, q, hq, huser⟩ | ⟨hallow, err, herr⟩⟩ :=
        admitPost_asked limiter hask
      · rw [passes, hq] at h
        rcases List.mem_cons.mp h with rfl | h
        · refine ⟨List.mem_cons_self, ?_⟩
          unfold asked at hask
          cases hm : messagesOf p.body with
          | error err =>
            rw [hm] at hask
            cases hask
          | ok m =>
            cases ha : authenticate true t p.visited with
            | error err =>
              rw [hm, ha] at hask
              cases hask
            | ok u =>
              rw [hm, ha] at hask
              obtain rfl := Option.some.inj hask
              rw [huser]
        · exact (ih h).imp_left (List.mem_cons_of_mem _)
      · rw [passes, herr] at h
        exact (ih h).imp_left (List.mem_cons_of_mem _)

/-- Every handler that runs has been let pass. -/
theorem handled_add_waiting (hapi : cfg.apiEnabled = true)
    (htrace : (frontSystem F L cfg t rpm).Trace x tr) (u : Str) :
    handled u tr + waiting u (final x tr) =
      waiting u x + (passes t x.limiter (posts tr)).countP fun a => a.2 = u := by
  induction htrace with
  | nil x => simp [handled, final, posts, passes]
  | @cons x a y tr hstep htrace ih =>
    have hhandle : ∀ {q pre post}, x.pending = pre ++ q :: post → y.pending = pre ++ post →
        y.limiter = x.limiter →
        handled u ((.handle q, y) :: tr) + waiting u (final y tr) = waiting u x +
          (passes t x.limiter (posts ((.handle q, y) :: tr))).countP fun a => a.2 = u := by
      intro q pre post hx hy hlimiter
      have hposts : posts ((Event.handle q, y) :: tr) = posts tr := rfl
      have hone : handled u ((Event.handle q, y) :: tr) =
          handled u tr + if q.2 = u then 1 else 0 := by
        rw [handled, List.countP_cons]
        simp [handled]
      rw [hlimiter] at ih
      rw [hposts, hone]
      have hwait : waiting u x = waiting u y + if q.2 = u then 1 else 0 := by
        simp only [waiting, hx, hy, List.countP_append, List.countP_cons, decide_eq_true_eq]
        omega
      omega
    cases hstep with
    | @refused p err limiter hadmit =>
      rw [hapi] at hadmit
      have hposts : posts ((Event.post p, { x with limiter := limiter }) :: tr) = p :: posts tr :=
        rfl
      rw [hposts, passes, hadmit]
      exact ih
    | @admitted p q limiter hadmit =>
      rw [hapi] at hadmit
      have hposts : posts ((Event.post p,
          { x with limiter := limiter, pending := q :: x.pending }) :: tr) = p :: posts tr := rfl
      rw [hposts, passes, hadmit]
      have hwait : waiting u { x with limiter := limiter, pending := q :: x.pending } =
          waiting u x + if q.2 = u then 1 else 0 := by
        simp only [waiting, List.countP_cons, decide_eq_true_eq]
      have hrest : handled u tr +
          waiting u (final { x with limiter := limiter, pending := q :: x.pending } tr) =
          waiting u { x with limiter := limiter, pending := q :: x.pending } +
            (passes t limiter (posts tr)).countP fun a => a.2 = u := ih
      have hsame : handled u ((Event.post p,
          { x with limiter := limiter, pending := q :: x.pending }) :: tr) = handled u tr := by
        simp [handled]
      rw [hsame]
      simp only [List.countP_cons, decide_eq_true_eq, final]
      omega
    | ended hp => exact hhandle hp rfl rfl
    | served hp _ => exact hhandle hp rfl rfl

/-- Those of a user that pass in some time are what the limiter grants the user then. -/
theorem countP_passes (t : Keys) (limiter : EngineLimiter) (ps : List (Post F)) (u : Str)
    (during : Int → Bool) :
    ((passes t limiter ps).countP fun a => a.2 = u && during a.1.now) =
      (SlidingWindow.granted u (SlidingWindow.answers EngineLimiter.allow limiter
        (ps.filterMap (asked t)))).countP during := by
  have hmap : ((passes t limiter ps).countP fun a => a.2 = u && during a.1.now) =
      ((passes t limiter ps).map fun a => (a.2, a.1.now)).countP fun e => e.1 = u && during e.2 := by
    rw [List.countP_map]
    rfl
  rw [hmap, passes_eq, List.countP_map, List.countP_filter, SlidingWindow.granted, List.countP_map,
    List.countP_filter]
  apply List.countP_congr
  intro a _
  simp only [Function.comp, Bool.and_eq_true, decide_eq_true_eq]
  tauto

/-- In API mode no more handlers of a user run than the limiter lets requests of the user pass; where
its clock readings are in order, these are as many as the limit at most in any minute; and a request
with a key that has a user passes as that user's, whatever else it says. -/
theorem handled_bounded (hapi : cfg.apiEnabled = true) (hrpm : 0 < rpm)
    (hstart : (frontSystem F L cfg t rpm).start x)
    (htrace : (frontSystem F L cfg t rpm).Trace x tr) (hu : u ≠ []) :
    handled u tr ≤ ((passes t { rpm := rpm } (posts tr)).countP fun a => a.2 = u) ∧
      (((posts tr).Pairwise fun p p' => p.now ≤ p'.now) →
        ∀ since, (((passes t { rpm := rpm } (posts tr)).countP fun a =>
          a.2 = u && (decide (since ≤ a.1.now) && decide (a.1.now ≤ since + 60 * 10 ^ 9)) : Nat) :
            Int) ≤ rpm) ∧
      ∀ a ∈ passes t { rpm := rpm } (posts tr), ∀ v, t.keyToUser (tokenOf a.1) = some v →
        a.2 = v := by
  obtain ⟨hlimiter, hpending, -⟩ := hstart
  refine ⟨?_, ?_, ?_⟩
  · have hsum := handled_add_waiting hapi htrace u
    have hnone : waiting u x = 0 := by simp [waiting, hpending]
    rw [hnone, hlimiter] at hsum
    omega
  · intro horder since
    have hin : SlidingWindow.InOrder ((posts tr).filterMap (asked t)) := by
      apply List.Pairwise.filterMap (asked t) _ horder
      intro p p' hle c hc c' hc'
      have hc : c.now = p.now := (admitPost_asked { rpm := rpm } hc).1
      have hc' : c'.now = p'.now := (admitPost_asked { rpm := rpm } hc').1
      rwa [hc, hc']
    have hkeeps : Gateway.KeepsLimit (60 * 10 ^ 9) rpm
        (SlidingWindow.answers (SlidingWindow.allow Gateway.anonymous (60 * 10 ^ 9) rpm) fun _ => [])
        ((posts tr).filterMap (asked t)) :=
      Gateway.keepsLimit_allow hrpm (by simp [Gateway.anonymous]) hin
    have hbound := hkeeps.bounded u hu since
    rw [← Gateway.engineAnswers_eq hrpm] at hbound
    rw [countP_passes t { rpm := rpm } (posts tr) u fun now =>
      decide (since ≤ now) && decide (now ≤ since + 60 * 10 ^ 9)]
    simpa using hbound
  · intro a ha v hv
    obtain ⟨w, hauth, -, -, hmapped | ⟨hnone, -⟩⟩ := authenticate_ok (mem_passes ha).2
    · have htoken : tokenOf a.1 = trimWs w := by
        rw [tokenOf, hauth, List.drop_left]
      rw [htoken, hmapped] at hv
      exact Option.some.inj hv
    · have htoken : tokenOf a.1 = trimWs w := by
        rw [tokenOf, hauth, List.drop_left]
      rw [htoken, hnone] at hv
      cases hv

theorem handled_bounded_colon :
    handled [97, 58, 98] colonRun ≤ 1 ∧
      (((passes openKeys { rpm := 1 } (posts colonRun)).countP fun a => a.2 = [97, 58, 98] &&
        (decide (0 ≤ a.1.now) && decide (a.1.now ≤ 0 + 60 * 10 ^ 9)) : Nat) : Int) ≤ 1 :=
  have h := handled_bounded (u := [97, 58, 98]) rfl (show (0 : Int) < 1 by decide)
    ⟨rfl, rfl, rfl⟩ colonRun_trace (by decide)
  ⟨h.1.trans (by decide +kernel), h.2.1 (by simp [colonRun, posts]) 0⟩

end Rate

end NotreEngine.Server
