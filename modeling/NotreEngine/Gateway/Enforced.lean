import NotreEngine.Gateway.Policy

/-!
# The policy at the engine

What `handle_chat` makes of the members of a request, and what it can make of those that the
gateway's policy has let through.
-/

namespace NotreEngine.Gateway

open Gguf (text)
open Config (Json)

inductive JsonError where
  | mustBeNumber
  deriving DecidableEq

section Engine

variable {F : Type} (toFloat : Int → F) (trunc : F → Int32)

/-- A value after it was sent: a whole number that no 64-bit integer holds arrives as a float. -/
def received : Json F → Json F
  | .integer n => if -2 ^ 63 ≤ n ∧ n < 2 ^ 64 then .integer n else .float (toFloat n)
  | v => v

/-- `get<int>()`; a float is cast, with any result where the cast has none. -/
def getInt : Json F → Except JsonError Int32
  | .integer n => .ok (Int32.ofInt n)
  | .float x => .ok (trunc x)
  | .boolean b => .ok (if b then 1 else 0)
  | _ => .error .mustBeNumber

/-- `body.value(key, default)` for an `int`. -/
def valueInt (m : Members F) (key : Str) (default : Int32) : Except JsonError Int32 :=
  match Assoc.find m key with
  | none => .ok default
  | some v => getInt trunc (received toFloat v)

/-- `max_tokens` of `handle_chat`. The default is evaluated whether it is needed or not. -/
def maxTokens (m : Members F) : Except JsonError Int32 := do
  let completion ← valueInt toFloat trunc m (text "max_completion_tokens") 256
  let tokens ← valueInt toFloat trunc m (text "max_tokens") completion
  return if tokens < 1 then 1 else tokens

/-- `think_enabled` of `handle_chat`. -/
def thinkEnabled (thinkDefault : Bool) (m : Members F) : Bool :=
  match Assoc.find m (text "chat_template_kwargs") with
  | some (.object kwargs) =>
    match Assoc.find kwargs (text "enable_thinking") with
    | some (.boolean b) => b
    | _ => thinkDefault
  | _ => thinkDefault

end Engine

/-- Whether `get<int>()` returns. -/
def isNumeric {F : Type} : Json F → Bool
  | .integer _ | .float _ | .boolean _ => true
  | _ => false

variable {F : Type} {toFloat : Int → F} {trunc : F → Int32} {settings : Settings}
  {m m' : Members F} {n : Int} {tokens : Int32} {v : Json F}

/-- What the first part can return. -/
theorem capTokens_cases (h : capTokens settings m = .ok m') :
    settings.maxTokensPerRequest ≤ 0 ∧ m' = m ∨
      ∃ n, 1 ≤ n ∧ n ≤ settings.maxTokensPerRequest ∧
        m' = Assoc.put m (text "max_tokens") (.integer n) := by
  unfold capTokens at h
  split at h
  case isFalse hoff => exact Or.inl ⟨not_lt.mp hoff, (Except.ok.inj h).symm⟩
  case isTrue hon =>
    right
    dsimp only at h
    split at h
    case h_1 | h_2 => exact ⟨_, hon, le_rfl, (Except.ok.inj h).symm⟩
    case h_3 raw hfound =>
      split at h
      · cases h
      · split at h
        · exact ⟨_, hon, le_rfl, (Except.ok.inj h).symm⟩
        · refine ⟨raw, by omega, by omega, ?_⟩
          rw [Assoc.put_of_find hfound]
          exact (Except.ok.inj h).symm
    case h_4 => cases h

/-- What the second part can return. -/
theorem forbidThinking_cases (h : forbidThinking settings m = .ok m') :
    settings.allowThinking = true ∧ m' = m ∨
      settings.allowThinking = false ∧
        m' = Assoc.put m (text "chat_template_kwargs")
          (.object (Assoc.put (templateKwargs m) (text "enable_thinking") (.boolean false))) := by
  unfold forbidThinking at h
  split at h
  case isTrue hon => exact Or.inl ⟨hon, (Except.ok.inj h).symm⟩
  case isFalse hoff =>
    refine Or.inr ⟨by simpa using hoff, ?_⟩
    split at h
    · cases h
    · exact (Except.ok.inj h).symm

/-- A capped request passes the first part as it is. -/
theorem capTokens_of_capped (h : settings.maxTokensPerRequest ≤ 0 ∨
    ∃ n, 1 ≤ n ∧ n ≤ settings.maxTokensPerRequest ∧
      Assoc.find m (text "max_tokens") = some (.integer n)) : capTokens settings m = .ok m := by
  unfold capTokens
  rcases h with hoff | ⟨n, hlo, hhi, hfound⟩
  · simp [not_lt.mpr hoff]
  · have hon : 0 < settings.maxTokensPerRequest := by omega
    simp only [hon, if_true, hfound, not_lt.mpr hlo, not_lt.mpr hhi, if_false]

theorem forbidThinking_of_forbidden (h : settings.allowThinking = true ∨
    ∃ kwargs, Assoc.find m (text "chat_template_kwargs") = some (.object kwargs) ∧
      Assoc.find kwargs (text "enable_thinking") = some (.boolean false)) :
    forbidThinking settings m = .ok m := by
  unfold forbidThinking
  rcases h with hon | ⟨kwargs, hkwargs, hthink⟩
  · simp [hon]
  · have hown : templateKwargs m = kwargs := by simp [templateKwargs, hkwargs]
    rw [hown, hthink, Assoc.put_of_find hthink, Assoc.put_of_find hkwargs]
    simp

theorem kwargs_ne_tokens : text "chat_template_kwargs" ≠ text "max_tokens" := by decide

/-- What the policy leaves in a request, besides what it does not touch. -/
structure Enforced (settings : Settings) (m m' : Members F) : Prop where
  capped : settings.maxTokensPerRequest ≤ 0 ∨
    ∃ n, 1 ≤ n ∧ n ≤ settings.maxTokensPerRequest ∧
      Assoc.find m' (text "max_tokens") = some (.integer n)
  forbidden : settings.allowThinking = true ∨
    ∃ kwargs, Assoc.find m' (text "chat_template_kwargs") = some (.object kwargs) ∧
      Assoc.find kwargs (text "enable_thinking") = some (.boolean false) ∧
      ∀ key ≠ text "enable_thinking",
        Assoc.find kwargs key = Assoc.find (templateKwargs m) key
  others : ∀ key, (key = text "max_tokens" → settings.maxTokensPerRequest ≤ 0) →
    (key = text "chat_template_kwargs" → settings.allowThinking = true) →
    Assoc.find m' key = Assoc.find m key

theorem enforced_of_policy (h : policy settings m = .ok m') : Enforced settings m m' := by
  unfold policy at h
  cases hm₁ : capTokens settings m with
  | error e =>
    rw [hm₁] at h
    cases h
  | ok m₁ =>
    rw [hm₁] at h
    have hcap := capTokens_cases hm₁
    have hthink := forbidThinking_cases h
    have hkwargs : templateKwargs m₁ = templateKwargs m := by
      rcases hcap with ⟨-, rfl⟩ | ⟨n, -, -, rfl⟩
      · rfl
      · rw [templateKwargs, Assoc.find_put_of_ne kwargs_ne_tokens, templateKwargs]
    refine ⟨?_, ?_, ?_⟩
    · rcases hcap with ⟨hoff, -⟩ | ⟨n, hlo, hhi, rfl⟩
      · exact Or.inl hoff
      · right
        refine ⟨n, hlo, hhi, ?_⟩
        rcases hthink with ⟨-, rfl⟩ | ⟨-, rfl⟩
        · exact Assoc.find_put_self
        · rw [Assoc.find_put_of_ne kwargs_ne_tokens.symm]
          exact Assoc.find_put_self
    · rcases hthink with ⟨hon, -⟩ | ⟨-, rfl⟩
      · exact Or.inl hon
      · right
        refine ⟨_, Assoc.find_put_self, Assoc.find_put_self, ?_⟩
        intro key hne
        rw [Assoc.find_put_of_ne hne, hkwargs]
    · intro key htokens hkey
      have hfirst : Assoc.find m₁ key = Assoc.find m key := by
        rcases hcap with ⟨-, rfl⟩ | ⟨n, hlo, hhi, rfl⟩
        · rfl
        · apply Assoc.find_put_of_ne
          intro heq
          have := htokens heq
          omega
      rw [← hfirst]
      rcases hthink with ⟨-, rfl⟩ | ⟨hoff, rfl⟩
      · rfl
      · apply Assoc.find_put_of_ne
        intro heq
        have := hkey heq
        simp_all

/-- The policy has nothing to say about what it has let through. -/
theorem Enforced.again (h : Enforced settings m m') : policy settings m' = .ok m' := by
  have hthink : forbidThinking settings m' = .ok m' := by
    rcases h.forbidden with hon | ⟨kwargs, hkwargs, hfalse, -⟩
    · exact forbidThinking_of_forbidden (Or.inl hon)
    · exact forbidThinking_of_forbidden (Or.inr ⟨kwargs, hkwargs, hfalse⟩)
  rw [policy, capTokens_of_capped h.capped]
  exact hthink

section AtEngine

/-- A number narrowed to an `int` is no larger than it was. -/
theorem toInt_ofInt_le (h : 1 ≤ n) : (Int32.ofInt n).toInt ≤ n := by
  rw [Int32.toInt_ofInt, Int.bmod_def, show Int32.size = 2 ^ 32 from rfl]
  split <;> omega

theorem received_integer (n : Int) : received toFloat (.integer n) =
    if -2 ^ 63 ≤ n ∧ n < 2 ^ 64 then .integer n else .float (toFloat n) := rfl

theorem getInt_received_le (h : 1 ≤ n)
    (hget : getInt trunc (received toFloat (.integer n)) = .ok tokens) : tokens.toInt ≤ n := by
  rw [received_integer] at hget
  split at hget
  · obtain rfl := Except.ok.inj hget
    exact toInt_ofInt_le h
  · obtain rfl := Except.ok.inj hget
    have := (trunc (toFloat n)).toInt_lt
    omega

theorem getInt_isOk : (∃ tokens, getInt trunc (received toFloat v) = .ok tokens) ↔
    isNumeric v = true := by
  cases v with
  | integer n =>
    rw [received_integer]
    split <;> simp [getInt, isNumeric]
  | _ => simp [received, getInt, isNumeric]

theorem maxTokens_le (h : 1 ≤ n) (hfound : Assoc.find m (text "max_tokens") = some (.integer n))
    (hmax : maxTokens toFloat trunc m = .ok tokens) : 1 ≤ tokens.toInt ∧ tokens.toInt ≤ n := by
  unfold maxTokens at hmax
  cases hc : valueInt toFloat trunc m (text "max_completion_tokens") 256 with
  | error e =>
    rw [hc] at hmax
    cases hmax
  | ok completion =>
    cases ht : valueInt toFloat trunc m (text "max_tokens") completion with
    | error e =>
      rw [hc] at hmax
      simp only [bind, Except.bind, ht] at hmax
      cases hmax
    | ok raw =>
      rw [hc] at hmax
      simp only [bind, Except.bind, ht] at hmax
      rw [valueInt, hfound] at ht
      have hle := getInt_received_le h ht
      obtain rfl := Except.ok.inj hmax
      split
      · exact ⟨le_rfl, h⟩
      · rename_i hlow
        have hlow := Int32.lt_iff_toInt_lt.not.mp hlow
        have hone : (1 : Int32).toInt = 1 := rfl
        omega

/-- The engine gets its number of tokens unless the alternative spelling is no number. -/
theorem maxTokens_isOk (hfound : Assoc.find m (text "max_tokens") = some (.integer n)) :
    (∃ tokens, maxTokens toFloat trunc m = .ok tokens) ↔
      ∀ v, Assoc.find m (text "max_completion_tokens") = some v → isNumeric v = true := by
  have htokens : ∀ completion, ∃ raw,
      valueInt toFloat trunc m (text "max_tokens") completion = .ok raw := by
    intro completion
    rw [valueInt, hfound]
    exact getInt_isOk.mpr rfl
  have hcompletion : (∃ c, valueInt toFloat trunc m (text "max_completion_tokens") 256 = .ok c) ↔
      ∀ v, Assoc.find m (text "max_completion_tokens") = some v → isNumeric v = true := by
    unfold valueInt
    cases Assoc.find m (text "max_completion_tokens") with
    | none => simp
    | some v => simpa using getInt_isOk
  rw [← hcompletion, maxTokens]
  cases valueInt toFloat trunc m (text "max_completion_tokens") 256 with
  | error e => simp [bind, Except.bind]
  | ok completion =>
    obtain ⟨raw, hraw⟩ := htokens completion
    simp [bind, Except.bind, hraw, pure, Except.pure]

theorem Enforced.thinkEnabled (h : Enforced settings m m')
    (hoff : settings.allowThinking = false) (thinkDefault : Bool) :
    thinkEnabled thinkDefault m' = false := by
  rcases h.forbidden with hon | ⟨kwargs, hkwargs, hfalse, -⟩
  · rw [hoff] at hon
    cases hon
  · simp [Gateway.thinkEnabled, hkwargs, hfalse]

/-- What the engine, and every reader of the other fields, find in what the policy returns. -/
structure PolicyHolds (settings : Settings) (m m' : Members F) : Prop where
  tokens : 0 < settings.maxTokensPerRequest → ∀ (toFloat : Int → F) (trunc : F → Int32) tokens,
    maxTokens toFloat trunc m' = .ok tokens →
      1 ≤ tokens.toInt ∧ tokens.toInt ≤ settings.maxTokensPerRequest
  computed : 0 < settings.maxTokensPerRequest → ∀ (toFloat : Int → F) (trunc : F → Int32),
    ((∃ tokens, maxTokens toFloat trunc m' = .ok tokens) ↔
      ∀ v, Assoc.find m (text "max_completion_tokens") = some v → isNumeric v = true)
  thinking : settings.allowThinking = false → ∀ thinkDefault, thinkEnabled thinkDefault m' = false
  others : ∀ key, (key = text "max_tokens" → settings.maxTokensPerRequest ≤ 0) →
    (key = text "chat_template_kwargs" → settings.allowThinking = true) →
    Assoc.find m' key = Assoc.find m key
  kwargs : settings.allowThinking = false →
    ∃ kwargs, Assoc.find m' (text "chat_template_kwargs") = some (.object kwargs) ∧
      ∀ key ≠ text "enable_thinking", Assoc.find kwargs key = Assoc.find (templateKwargs m) key

theorem Enforced.holds (h : Enforced settings m m') : PolicyHolds settings m m' := by
  have hcapped : 0 < settings.maxTokensPerRequest →
      ∃ n, 1 ≤ n ∧ n ≤ settings.maxTokensPerRequest ∧
        Assoc.find m' (text "max_tokens") = some (.integer n) :=
    fun hon => h.capped.resolve_left hon.not_ge
  refine ⟨?_, ?_, h.thinkEnabled, h.others, ?_⟩
  · intro hon toFloat trunc tokens hmax
    obtain ⟨n, hlo, hhi, hfound⟩ := hcapped hon
    obtain ⟨hone, hle⟩ := maxTokens_le hlo hfound hmax
    exact ⟨hone, hle.trans hhi⟩
  · intro hon toFloat trunc
    obtain ⟨n, -, -, hfound⟩ := hcapped hon
    have hsame : Assoc.find m' (text "max_completion_tokens") =
        Assoc.find m (text "max_completion_tokens") :=
      h.others _ (fun heq => absurd heq (by decide)) (fun heq => absurd heq (by decide))
    rw [maxTokens_isOk hfound, hsame]
  · intro hoff
    rcases h.forbidden with hon | ⟨kwargs, hkwargs, -, hrest⟩
    · rw [hoff] at hon
      cases hon
    · exact ⟨kwargs, hkwargs, hrest⟩

/-- `apply_chat_policy` raises its error, or returns a new dict in which the policy holds, with every
dict of the request as it was; a second application changes nothing more. -/
theorem applyChatPolicy_holds (settings : Settings) (h : Heap F) (body : Nat) (m : Members F)
    (hb : Denotes h (.dict body) (.object m)) :
    (∃ e, applyChatPolicy settings body h = .error e) ∨
      ∃ out h' m', applyChatPolicy settings body h = .ok (out, h') ∧
        Denotes h' (.dict out) (.object m') ∧ PolicyHolds settings m m' ∧ h <+: h' ∧
        ∃ out' h'', applyChatPolicy settings out h' = .ok (out', h'') ∧ h' <+: h'' ∧
          Denotes h'' (.dict out') (.object m') := by
  have hrun := applyChatPolicy_matches settings hb
  generalize hx : applyChatPolicy settings body h = x at hrun
  generalize hy : policy settings m = y at hrun
  cases hrun with
  | error e => exact Or.inl ⟨e, rfl⟩
  | @ok r m' hr =>
    obtain ⟨out, h'⟩ := r
    obtain ⟨hle, hout⟩ := hr
    have henforced := enforced_of_policy hy
    have hagain := applyChatPolicy_matches settings hout
    rw [henforced.again] at hagain
    generalize hz : applyChatPolicy settings out h' = z at hagain
    cases hagain with
    | @ok r' _ hr' =>
      obtain ⟨out', h''⟩ := r'
      exact Or.inr ⟨out, h', m', rfl, hout, henforced.holds, hle, out', h'', hz, hr'.1, hr'.2⟩

/-- A request for too many tokens that leaves the thinking open. -/
def eagerHeap : Heap Unit :=
  [[(text "max_tokens", .integer 512), (text "chat_template_kwargs", .dict 1)],
    [(text "foo", .string (text "bar"))]]

def eagerMembers : Members Unit :=
  [(text "max_tokens", .integer 512),
    (text "chat_template_kwargs", .object [(text "foo", .string (text "bar"))])]

theorem applyChatPolicy_holds_eager :
    ∃ out h' m', applyChatPolicy ⟨false, 64⟩ 0 eagerHeap = .ok (out, h') ∧
      Denotes h' (.dict out) (.object m') ∧ PolicyHolds ⟨false, 64⟩ eagerMembers m' := by
  have hkwargs : Denotes eagerHeap (.dict 1) (.object [(text "foo", .string (text "bar"))]) :=
    .dict rfl (.cons (.string _) .nil)
  have hbody : Denotes eagerHeap (.dict 0) (.object eagerMembers) :=
    .dict rfl (.cons (.integer 512) (.cons hkwargs .nil))
  rcases applyChatPolicy_holds ⟨false, 64⟩ eagerHeap 0 eagerMembers hbody with
    ⟨e, he⟩ | ⟨out, h', m', hrun, hout, hholds, -⟩
  · exact absurd he (by simp [show applyChatPolicy ⟨false, 64⟩ 0 eagerHeap = .ok (2, _) from rfl])
  · exact ⟨out, h', m', hrun, hout, hholds⟩

end AtEngine

end NotreEngine.Gateway
