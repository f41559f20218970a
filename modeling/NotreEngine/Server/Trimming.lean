import NotreEngine.Gguf.Model
import NotreEngine.Shedding

/-!
# Message trimming

`trim_messages_for_context`: the oldest messages that are not the system's are erased until the
count of the rest is within the budget. Any function may do the counting, so the messages may be
any JSON: looking for a role that is no text raises an exception.
-/
namespace NotreEngine.Server

open Gguf (text)
open Shedding

/-- A member of a JSON object where a text is looked for. -/
inductive Field where
  | missing
  | string (s : Str)
  | other
  deriving DecidableEq

/-- One entry of `messages`, with the two members that are read. -/
inductive Message where
  | object (role content : Field)
  | other
  deriving DecidableEq

/-- The exception of the JSON library, with its number. -/
structure TypeError where
  id : Nat
  deriving DecidableEq

/-- `value("role", "")`. -/
def Message.roleValue : Message → Except TypeError Str
  | .object .missing _ => .ok []
  | .object (.string role) _ => .ok role
  | .object .other _ => .error ⟨302⟩
  | .other => .error ⟨306⟩

/-- The scan for the first message that is not the system's. -/
def findDropAt : List Message → Except TypeError Nat
  | [] => .ok 0
  | msg :: messages =>
    match msg.roleValue with
    | .error err => .error err
    | .ok role => if role = text "system" then (findDropAt messages).map (· + 1) else .ok 0

/-- The loop of `trim_messages_for_context`; `none` when the fuel runs out. -/
def trimLoop (countTokens : List Message → Int) (maxPromptTokens : Int) :
    Nat → List Message → Nat → Option (Except TypeError (List Message × Nat))
  | 0, _, _ => none
  | fuel + 1, messages, dropped =>
    if messages.isEmpty then some (.ok (messages, dropped))
    else
      let n := countTokens messages
      if n ≤ 0 then some (.ok (messages, dropped))
      else if n ≤ maxPromptTokens then some (.ok (messages, dropped))
      else
        match findDropAt messages with
        | .error err => some (.error err)
        | .ok dropAt =>
          if messages.length ≤ dropAt then some (.ok (messages, dropped))
          else trimLoop countTokens maxPromptTokens fuel (messages.eraseIdx dropAt) (dropped + 1)

/-- Each round but the last erases a message, so there is a result. -/
def trimMessagesForContext (countTokens : List Message → Int) (maxPromptTokens : Int)
    (messages : List Message) : Except TypeError (List Message × Nat) :=
  (trimLoop countTokens maxPromptTokens (messages.length + 1) messages 0).getD (.ok (messages, 0))

/-- Whether a message is the system's. One whose role cannot be read is not. -/
def Message.isSystem (msg : Message) : Bool :=
  match msg.roleValue with
  | .ok role => role == text "system"
  | .error _ => false

def Message.roleError (msg : Message) : Option TypeError :=
  match msg.roleValue with
  | .ok _ => none
  | .error err => some err

/-- The loop ends with this list: its count is within the budget or not positive. -/
def Settles (countTokens : List Message → Int) (maxPromptTokens : Int) (messages : List Message) :
    Prop :=
  countTokens messages ≤ maxPromptTokens ∨ countTokens messages ≤ 0

/-- The messages without the `k` oldest that are not the system's. -/
abbrev withoutOldest (k : Nat) (messages : List Message) : List Message :=
  dropOldest Message.isSystem k messages

/-- The `k` oldest messages that are not the system's. -/
def oldest (k : Nat) (messages : List Message) : List Message :=
  (messages.filter fun msg => !msg.isSystem).take k

/-- The list without the `k` oldest messages, if the roles of all of them can be read; otherwise the
exception that the first other one raises. -/
def shed (k : Nat) (messages : List Message) : Except TypeError (List Message × Nat) :=
  match (oldest k messages).findSome? Message.roleError with
  | some err => .error err
  | none => .ok (withoutOldest k messages, k)

variable {countTokens : List Message → Int} {budget : Int} {messages : List Message} {msg : Message}
  {err : TypeError} {k : Nat}

/-- The scan stops at the first message that is not the system's, or fails there. -/
theorem findDropAt_eq (messages : List Message) :
    findDropAt messages =
      match (messages.find? fun msg => !msg.isSystem).bind Message.roleError with
      | some err => .error err
      | none => .ok (messages.findIdx fun msg => !msg.isSystem) := by
  induction messages with
  | nil => rfl
  | cons msg messages ih =>
    cases hrole : msg.roleValue with
    | error err => simp [findDropAt, Message.isSystem, Message.roleError, hrole]
    | ok role =>
      by_cases hsystem : role = text "system"
      · have hskip : (!msg.isSystem) = false := by simp [Message.isSystem, hrole, hsystem]
        simp only [findDropAt, hrole, if_pos hsystem, ih, List.find?_cons, List.findIdx_cons, hskip,
          cond_false]
        cases (messages.find? fun msg => !msg.isSystem).bind Message.roleError <;> rfl
      · have hstop : (!msg.isSystem) = true := by simp [Message.isSystem, hrole, hsystem]
        simp [findDropAt, hrole, hsystem, hstop, List.findIdx_cons, Message.roleError]

@[simp] theorem shed_zero : shed 0 messages = .ok (messages, 0) := by
  simp [shed, oldest]

theorem oldest_succ (hfind : messages.find? (fun msg => !msg.isSystem) = some msg) :
    oldest (k + 1) messages = msg :: oldest k (withoutOldest 1 messages) := by
  have hhead : (messages.filter fun msg => !msg.isSystem).head? = some msg := by
    rw [List.head?_filter, hfind]
  obtain ⟨later, hfilter⟩ := List.head?_eq_some_iff.mp hhead
  rw [oldest, oldest, filter_loose_dropOldest, hfilter, List.take_succ_cons, List.drop_one,
    List.tail_cons]

theorem shed_succ_error (hfind : messages.find? (fun msg => !msg.isSystem) = some msg)
    (herr : msg.roleError = some err) : shed (k + 1) messages = .error err := by
  simp [shed, oldest_succ hfind, herr]

theorem shed_succ (hfind : messages.find? (fun msg => !msg.isSystem) = some msg)
    (hread : msg.roleError = none) :
    shed (k + 1) messages =
      (shed k (withoutOldest 1 messages)).map fun r => (r.1, r.2 + 1) := by
  have hsame : withoutOldest k (withoutOldest 1 messages) = withoutOldest (k + 1) messages :=
    dropOldest_dropOldest_one
  rw [shed, shed, oldest_succ hfind, List.findSome?_cons, hread, hsame]
  cases (oldest k (withoutOldest 1 messages)).findSome? Message.roleError <;> rfl

theorem trimLoop_sheds {fuel : Nat} (dropped : Nat) (hfuel : messages.length < fuel) :
    ∃ k, trimLoop countTokens budget fuel messages dropped =
        some ((shed k messages).map fun r => (r.1, dropped + r.2)) ∧
      IsLeastShed Message.isSystem (Settles countTokens budget) messages k := by
  induction fuel generalizing messages dropped with
  | zero => exact (Nat.not_lt_zero _ hfuel).elim
  | succ fuel ih =>
    have hstay : some (Except.ok (messages, dropped)) =
        some ((shed 0 messages).map fun r => (r.1, dropped + r.2)) := by
      rw [shed_zero]
      rfl
    simp only [trimLoop]
    split
    · rename_i hnil
      refine ⟨0, hstay, isLeastShed_stuck ?_⟩
      rw [List.isEmpty_iff.mp hnil]
      rfl
    split
    · rename_i hneg
      exact ⟨0, hstay, isLeastShed_zero (Or.inr hneg)⟩
    split
    · rename_i hfits
      exact ⟨0, hstay, isLeastShed_zero (Or.inl hfits)⟩
    rename_i hne hpos hover
    have hunsettled : ¬Settles countTokens budget messages := by
      rintro (hle | hle)
      · exact hover hle
      · exact hpos hle
    rw [findDropAt_eq]
    cases hfind : messages.find? fun msg => !msg.isSystem with
    | none =>
      have hloose : loose Message.isSystem messages = 0 := by
        rw [loose, List.countP_eq_zero]
        exact List.find?_eq_none.mp hfind
      have hend : messages.length ≤ messages.findIdx fun msg => !msg.isSystem :=
        length_le_findIdx_iff.mpr hloose
      simp only [Option.bind_none, if_pos hend]
      exact ⟨0, hstay, isLeastShed_stuck hloose⟩
    | some msg =>
      have hloose : loose Message.isSystem messages ≠ 0 := by
        rw [loose, Ne, List.countP_eq_zero]
        have hmsg : (!msg.isSystem) = true := by simpa using List.find?_some hfind
        exact fun hnone => hnone msg (List.mem_of_find?_eq_some hfind) hmsg
      have hlt : ¬messages.length ≤ messages.findIdx fun msg => !msg.isSystem := by
        rwa [length_le_findIdx_iff]
      have hshort : (withoutOldest 1 messages).length < fuel := by
        rw [withoutOldest, ← eraseIdx_findIdx, List.length_eraseIdx_of_lt (not_le.mp hlt)]
        omega
      obtain ⟨k, hrun, hleast⟩ := ih (dropped + 1) hshort
      refine ⟨k + 1, ?_, hleast.succ hunsettled hloose⟩
      cases hread : msg.roleError with
      | some err =>
        rw [shed_succ_error hfind hread]
        simp only [Option.bind_some, hread]
        rfl
      | none =>
        simp only [Option.bind_some, hread, if_neg hlt, eraseIdx_findIdx]
        rw [hrun, shed_succ hfind hread]
        cases shed k (withoutOldest 1 messages) with
        | error err => rfl
        | ok r =>
          have hcount : dropped + 1 + r.2 = dropped + (r.2 + 1) := by omega
          exact congrArg (fun n => some (Except.ok (r.1, n))) hcount

/-- The loop ends, and leaves the messages without as many of the oldest ones as it takes, or fails
at the first of these whose role is no text. -/
theorem trimMessagesForContext_sheds (countTokens : List Message → Int) (budget : Int)
    (messages : List Message) :
    ∃ k, IsLeastShed Message.isSystem (Settles countTokens budget) messages k ∧
      (∀ fuel, messages.length < fuel →
        trimLoop countTokens budget fuel messages 0 = some (shed k messages)) ∧
      trimMessagesForContext countTokens budget messages = shed k messages := by
  have hsame : ∀ k, ((shed k messages).map fun r => (r.1, 0 + r.2)) = shed k messages := by
    intro k
    cases shed k messages with
    | error err => rfl
    | ok r => exact congrArg (fun n => Except.ok (r.1, n)) (Nat.zero_add r.2)
  obtain ⟨k, hrun, hleast⟩ := @trimLoop_sheds countTokens budget messages (messages.length + 1) 0
    (Nat.lt_succ_self _)
  rw [hsame] at hrun
  refine ⟨k, hleast, fun fuel hfuel => ?_, ?_⟩
  · obtain ⟨k', hrun', hleast'⟩ := @trimLoop_sheds countTokens budget messages fuel 0 hfuel
    rw [hrun', hsame, hleast.unique hleast']
  · rw [trimMessagesForContext, hrun, Option.getD_some]

/-- An instruction, a question, an answer and another question: one message has to go. -/
example :
    let said (role : String) : Message := .object (.string (text role)) (.string [])
    trimMessagesForContext (fun msgs => msgs.length) 3
      [said "user", said "system", said "assistant", said "user"] =
        .ok ([said "system", said "assistant", said "user"], 1) := by
  decide

/-- A message whose role is a number cannot be passed over. -/
theorem not_sheds : ¬∀ (countTokens : List Message → Int) (budget : Int) (messages : List Message),
    ∃ k, IsLeastShed Message.isSystem (Settles countTokens budget) messages k ∧
      trimMessagesForContext countTokens budget messages = .ok (withoutOldest k messages, k) := by
  intro h
  obtain ⟨k, -, hk⟩ := h (fun _ => 1) 0 [.object .other (.string [])]
  have hthrown : trimMessagesForContext (fun _ => 1) 0 [.object .other (.string [])] =
      .error ⟨302⟩ := by
    decide
  rw [hthrown] at hk
  cases hk

end NotreEngine.Server
