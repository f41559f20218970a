import NotreEngine.Assoc
import NotreEngine.Config.Json

/-!
# The chat policy of the gateway

`apply_chat_policy` of `policy.py`. A dict is an object on a heap, so that what the policy does to
the request it is given can be told apart from what it does to its copies.
-/

namespace NotreEngine.Gateway

open Gguf (text)
open Config (Json)

/-- The members of a JSON object. -/
abbrev Members (F : Type) := List (Str × Json F)

/-- A Python value. A dict is where it lies on the heap; a list, which the policy never opens, is
left whole. -/
inductive Value (F : Type) where
  | none
  | boolean (b : Bool)
  | integer (n : Int)
  | float (x : F)
  | string (s : Str)
  | list (items : List (Json F))
  | dict (ref : Nat)

abbrev Dict (F : Type) := List (Str × Value F)

abbrev Heap (F : Type) := List (Dict F)

/-- The settings that the policy reads. -/
structure Settings where
  allowThinking : Bool
  maxTokensPerRequest : Int

structure PolicyError where
  status : Nat
  detail : Str
  deriving DecidableEq

def notAnInteger : PolicyError := ⟨400, text "max_tokens must be a positive integer"⟩

def notPositive : PolicyError := ⟨400, text "max_tokens must be >= 1"⟩

def thinkingDisabled : PolicyError := ⟨403, text "thinking is disabled by gateway policy"⟩

variable {F : Type}

namespace Heap

/-- `d.get(key)` -/
def get (h : Heap F) (r : Nat) (key : Str) : Value F :=
  (Assoc.find (h.getD r []) key).getD .none

/-- `d[key] = v` -/
def set (h : Heap F) (r : Nat) (key : Str) (v : Value F) : Heap F :=
  List.set h r (Assoc.put (h.getD r []) key v)

/-- A new dict and where it lies. -/
def alloc (h : Heap F) (d : Dict F) : Nat × Heap F := (h.length, h ++ [d])

/-- `dict(d)` -/
def copy (h : Heap F) (r : Nat) : Nat × Heap F := h.alloc (h.getD r [])

/-- The first part of `apply_chat_policy`. -/
def capTokens (settings : Settings) (out : Nat) (h : Heap F) : Except PolicyError (Heap F) :=
  if 0 < settings.maxTokensPerRequest then
    let cap := settings.maxTokensPerRequest
    match h.get out (text "max_tokens") with
    | .none => .ok (h.set out (text "max_tokens") (.integer cap))
    | .integer raw =>
      if raw < 1 then .error notPositive
      else if cap < raw then .ok (h.set out (text "max_tokens") (.integer cap))
      else .ok h
    | _ => .error notAnInteger
  else .ok h

/-- The dict of the template arguments, copied if the request has one. -/
def ownKwargs (out : Nat) (h : Heap F) : Nat × Heap F :=
  match h.get out (text "chat_template_kwargs") with
  | .dict r => h.copy r
  | _ => h.alloc []

/-- The second part. -/
def forbidThinking (settings : Settings) (out : Nat) (h : Heap F) :
    Except PolicyError (Heap F) :=
  if settings.allowThinking then .ok h
  else
    let (kwargs, h) := h.ownKwargs out
    match h.get kwargs (text "enable_thinking") with
    | .boolean true => .error thinkingDisabled
    | _ =>
      let h := h.set kwargs (text "enable_thinking") (.boolean false)
      .ok (h.set out (text "chat_template_kwargs") (.dict kwargs))

end Heap

/-- Where the result lies, and the heap afterwards. -/
def applyChatPolicy (settings : Settings) (body : Nat) (h : Heap F) :
    Except PolicyError (Nat × Heap F) := do
  let (out, h) := h.copy body
  let h ← h.capTokens settings out
  let h ← h.forbidThinking settings out
  return (out, h)

mutual

/-- The JSON value that a Python value stands for. -/
inductive Denotes (h : Heap F) : Value F → Json F → Prop
  | none : Denotes h .none .null
  | boolean (b) : Denotes h (.boolean b) (.boolean b)
  | integer (n) : Denotes h (.integer n) (.integer n)
  | float (x) : Denotes h (.float x) (.float x)
  | string (s) : Denotes h (.string s) (.string s)
  | list (items) : Denotes h (.list items) (.array items)
  | dict {r d m} : h[r]? = some d → DenotesAll h d m → Denotes h (.dict r) (.object m)

inductive DenotesAll (h : Heap F) : Dict F → Members F → Prop
  | nil : DenotesAll h [] []
  | cons {k v j d m} : Denotes h v j → DenotesAll h d m → DenotesAll h ((k, v) :: d) ((k, j) :: m)

end

/-- The first part, on the members of the request. -/
def capTokens (settings : Settings) (m : Members F) : Except PolicyError (Members F) :=
  if 0 < settings.maxTokensPerRequest then
    let cap := settings.maxTokensPerRequest
    match Assoc.find m (text "max_tokens") with
    | none | some .null => .ok (Assoc.put m (text "max_tokens") (.integer cap))
    | some (.integer raw) =>
      if raw < 1 then .error notPositive
      else if cap < raw then .ok (Assoc.put m (text "max_tokens") (.integer cap))
      else .ok m
    | some _ => .error notAnInteger
  else .ok m

/-- The template arguments that are sent: those of the request, if it has an object there. -/
def templateKwargs (m : Members F) : Members F :=
  match Assoc.find m (text "chat_template_kwargs") with
  | some (.object kwargs) => kwargs
  | _ => []

def forbidThinking (settings : Settings) (m : Members F) : Except PolicyError (Members F) :=
  if settings.allowThinking then .ok m
  else
    match Assoc.find (templateKwargs m) (text "enable_thinking") with
    | some (.boolean true) => .error thinkingDisabled
    | _ =>
      .ok (Assoc.put m (text "chat_template_kwargs")
        (.object (Assoc.put (templateKwargs m) (text "enable_thinking") (.boolean false))))

def policy (settings : Settings) (m : Members F) : Except PolicyError (Members F) :=
  capTokens settings m >>= forbidThinking settings

variable {h h' : Heap F} {v : Value F} {j : Json F} {d : Dict F} {m m' : Members F} {r : Nat}
  {key : Str} {settings : Settings} {cap : Int}

theorem denotesAll_iff : DenotesAll h d m ↔ Assoc.Related (Denotes h) d m := by
  constructor
  · intro hd
    induction d generalizing m with
    | nil =>
      cases hd
      exact List.Forall₂.nil
    | cons e d ih =>
      cases hd with
      | cons hv hrest => exact List.Forall₂.cons ⟨rfl, hv⟩ (ih hrest)
  · intro hd
    induction hd with
    | nil => exact .nil
    | @cons e e' d m he hrest ih =>
      obtain ⟨k, v⟩ := e
      obtain ⟨k', j⟩ := e'
      obtain ⟨rfl, hv⟩ := he
      exact .cons hv ih

theorem getElem?_of_isPrefix (hle : h <+: h') (hr : h[r]? = some d) : h'[r]? = some d := by
  obtain ⟨t, rfl⟩ := hle
  rw [List.getElem?_append_left (List.getElem?_eq_some_iff.mp hr).1, hr]

mutual

/-- What a value stands for does not change when dicts are added to the heap. -/
theorem Denotes.mono (hle : h <+: h') :
    ∀ {v : Value F} {j : Json F}, Denotes h v j → Denotes h' v j
  | _, _, .none => .none
  | _, _, .boolean b => .boolean b
  | _, _, .integer n => .integer n
  | _, _, .float x => .float x
  | _, _, .string s => .string s
  | _, _, .list items => .list items
  | _, _, .dict hr hall => .dict (getElem?_of_isPrefix hle hr) (DenotesAll.mono hle hall)

theorem DenotesAll.mono (hle : h <+: h') :
    ∀ {d : Dict F} {m : Members F}, DenotesAll h d m → DenotesAll h' d m
  | _, _, .nil => .nil
  | _, _, .cons hv hrest => .cons (Denotes.mono hle hv) (DenotesAll.mono hle hrest)

end

/-- Both computations fail alike, or their results are related. -/
inductive Matches {ε α β : Type} (R : α → β → Prop) : Except ε α → Except ε β → Prop
  | ok {a b} : R a b → Matches R (.ok a) (.ok b)
  | error (e) : Matches R (.error e) (.error e)

theorem Matches.bind {ε α β α' β' : Type} {R : α → β → Prop} {S : α' → β' → Prop}
    {x : Except ε α} {y : Except ε β} {f : α → Except ε α'} {g : β → Except ε β'}
    (hxy : Matches R x y) (hfg : ∀ a b, R a b → Matches S (f a) (g b)) :
    Matches S (x >>= f) (y >>= g) := by
  cases hxy with
  | ok hab => exact hfg _ _ hab
  | error e => exact .error e

namespace Heap

theorem get_at (h : Heap F) (d : Dict F) (t : Heap F) (key : Str) :
    get (h ++ d :: t) h.length key = (Assoc.find d key).getD .none := by
  simp [get]

theorem set_at (h : Heap F) (d : Dict F) (t : Heap F) (key : Str) (v : Value F) :
    set (h ++ d :: t) h.length key v = h ++ Assoc.put d key v :: t := by
  simp [set]

theorem copy_eq {r : Nat} (hr : h[r]? = some d) : h.copy r = (h.length, h ++ [d]) := by
  simp [copy, alloc, List.getD_eq_getElem?_getD, hr]

/-- The first part works on a dict of its own. -/
theorem capTokens_matches (settings : Settings) (hd : DenotesAll h d m) :
    Matches (fun h₁ m₁ => ∃ d₁, h₁ = h ++ [d₁] ∧ DenotesAll h d₁ m₁)
      (capTokens settings h.length (h ++ [d])) (Gateway.capTokens settings m) := by
  have hrel := denotesAll_iff.mp hd
  have hput : ∀ cap, DenotesAll h (Assoc.put d (text "max_tokens") (.integer cap))
      (Assoc.put m (text "max_tokens") (.integer cap)) :=
    fun cap => denotesAll_iff.mpr (hrel.put (.integer cap))
  simp only [capTokens, get_at, set_at, Gateway.capTokens]
  split
  case isFalse => exact .ok ⟨d, rfl, hd⟩
  case isTrue =>
    rcases hrel.find (text "max_tokens") with ⟨hn, hn'⟩ | ⟨v, j, hv, hj, hvj⟩
    · rw [hn, hn']
      exact .ok ⟨_, rfl, hput _⟩
    · rw [hv, hj]
      cases hvj with
      | none => exact .ok ⟨_, rfl, hput _⟩
      | integer raw =>
        simp only [Option.getD_some]
        split
        · exact .error _
        · split
          · exact .ok ⟨_, rfl, hput _⟩
          · exact .ok ⟨_, rfl, hd⟩
      | boolean => exact .error _
      | float => exact .error _
      | string => exact .error _
      | list => exact .error _
      | dict => exact .error _

/-- The template arguments lie in a new dict, behind all that there were. -/
theorem ownKwargs_eq (hd : DenotesAll h d m) :
    ∃ k, DenotesAll h k (templateKwargs m) ∧
      ownKwargs h.length (h ++ [d]) = ((h ++ [d]).length, (h ++ [d]) ++ [k]) := by
  rw [ownKwargs, get_at, templateKwargs]
  rcases (denotesAll_iff.mp hd).find (text "chat_template_kwargs") with
    ⟨hn, hn'⟩ | ⟨v, j, hv, hj, hvj⟩
  · rw [hn, hn']
    exact ⟨[], .nil, rfl⟩
  · rw [hv, hj]
    cases hvj with
    | dict hr hk => exact ⟨_, hk, copy_eq (getElem?_of_isPrefix (List.prefix_append _ _) hr)⟩
    | none => exact ⟨[], .nil, rfl⟩
    | boolean => exact ⟨[], .nil, rfl⟩
    | integer => exact ⟨[], .nil, rfl⟩
    | float => exact ⟨[], .nil, rfl⟩
    | string => exact ⟨[], .nil, rfl⟩
    | list => exact ⟨[], .nil, rfl⟩

/-- The second part, with the dict of the template arguments it makes. -/
theorem forbidThinking_eq {k : Dict F} (hforbid : settings.allowThinking = false)
    (hkwargs : ownKwargs h.length (h ++ [d]) = ((h ++ [d]).length, (h ++ [d]) ++ [k])) :
    forbidThinking settings h.length (h ++ [d]) =
      match (Assoc.find k (text "enable_thinking")).getD .none with
      | .boolean true => .error thinkingDisabled
      | _ => .ok (h ++ [Assoc.put d (text "chat_template_kwargs") (.dict (h ++ [d]).length),
          Assoc.put k (text "enable_thinking") (.boolean false)]) := by
  have hset : ∀ k', set ((h ++ [d]) ++ [k']) h.length (text "chat_template_kwargs")
      (.dict (h ++ [d]).length) =
        h ++ [Assoc.put d (text "chat_template_kwargs") (.dict (h ++ [d]).length), k'] := by
    intro k'
    rw [List.append_assoc]
    exact set_at h d [k'] _ _
  simp only [forbidThinking, hforbid, hkwargs, get_at, set_at, hset, Bool.false_eq_true, if_false]

/-- The copies with the thinking turned off stand for the members with the thinking turned off. -/
theorem denotesAll_forbidden {k : Dict F} {km : Members F} (hd : DenotesAll h d m)
    (hk : DenotesAll h k km) :
    DenotesAll
      (h ++ [Assoc.put d (text "chat_template_kwargs") (.dict (h ++ [d]).length),
        Assoc.put k (text "enable_thinking") (.boolean false)])
      (Assoc.put d (text "chat_template_kwargs") (.dict (h ++ [d]).length))
      (Assoc.put m (text "chat_template_kwargs")
        (.object (Assoc.put km (text "enable_thinking") (.boolean false)))) := by
  have hle := List.prefix_append h
    [Assoc.put d (text "chat_template_kwargs") (.dict (h ++ [d]).length),
      Assoc.put k (text "enable_thinking") (.boolean false)]
  apply denotesAll_iff.mpr
  apply (denotesAll_iff.mp (hd.mono hle)).put
  have hkput := (denotesAll_iff.mp (hk.mono hle)).put (k := text "enable_thinking")
    (.boolean false)
  exact .dict (by simp) (denotesAll_iff.mpr hkput)

theorem forbidThinking_matches (settings : Settings) (hd : DenotesAll h d m) :
    Matches (fun h₁ m₁ => h <+: h₁ ∧ Denotes h₁ (.dict h.length) (.object m₁))
      (forbidThinking settings h.length (h ++ [d])) (Gateway.forbidThinking settings m) := by
  cases hforbid : settings.allowThinking with
  | true =>
    have hle := List.prefix_append h [d]
    simp only [forbidThinking, Gateway.forbidThinking, hforbid, if_true]
    exact .ok ⟨hle, .dict (by simp) (hd.mono hle)⟩
  | false =>
    obtain ⟨k, hk, hkwargs⟩ := ownKwargs_eq hd
    rw [forbidThinking_eq hforbid hkwargs, Gateway.forbidThinking, hforbid]
    have hok := denotesAll_forbidden hd hk
    have hle := List.prefix_append h
      [Assoc.put d (text "chat_template_kwargs") (.dict (h ++ [d]).length),
        Assoc.put k (text "enable_thinking") (.boolean false)]
    rcases (denotesAll_iff.mp hk).find (text "enable_thinking") with
      ⟨hn, hn'⟩ | ⟨v, j, hv, hj, hvj⟩
    · rw [hn, hn']
      exact .ok ⟨hle, .dict (by simp) hok⟩
    · rw [hv, hj]
      cases hvj with
      | boolean b =>
        cases b with
        | true => exact .error _
        | false => exact .ok ⟨hle, .dict (by simp) hok⟩
      | none => exact .ok ⟨hle, .dict (by simp) hok⟩
      | integer => exact .ok ⟨hle, .dict (by simp) hok⟩
      | float => exact .ok ⟨hle, .dict (by simp) hok⟩
      | string => exact .ok ⟨hle, .dict (by simp) hok⟩
      | list => exact .ok ⟨hle, .dict (by simp) hok⟩
      | dict => exact .ok ⟨hle, .dict (by simp) hok⟩

end Heap

/-- `apply_chat_policy` does to a new dict what the policy does to the members of the request, and
leaves every dict there was as it was. -/
theorem applyChatPolicy_matches {body : Nat} (settings : Settings)
    (hb : Denotes h (.dict body) (.object m)) :
    Matches (fun r m₁ => h <+: r.2 ∧ Denotes r.2 (.dict r.1) (.object m₁))
      (applyChatPolicy settings body h) (policy settings m) := by
  cases hb with
  | dict hr hd =>
    simp only [applyChatPolicy, Heap.copy_eq hr, policy]
    apply (Heap.capTokens_matches settings hd).bind
    rintro _ m₁ ⟨d₁, rfl, hd₁⟩
    have hforbid := Heap.forbidThinking_matches settings hd₁
    rw [← bind_pure (forbidThinking settings m₁)]
    apply hforbid.bind
    intro h₂ m₂ hok
    exact .ok hok

end NotreEngine.Gateway
