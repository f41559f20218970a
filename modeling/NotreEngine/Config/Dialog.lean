import NotreEngine.Config.Agreement
import NotreEngine.Gateway.Clients
import NotreEngine.Gguf.Registry
import NotreEngine.Memory.KvBudget

/-!
# The dialog of the setup program

`main` of `cne_setup` from its suggestions to the files it leaves: the values are preset, kept or
typed, and nothing is written before they have been confirmed.
-/
namespace NotreEngine.Config

open Gguf (text)
open Decimal (digits)
open Memory (Regime ServingKvEstimate suggestServingKv)

section Suggestions

variable (artifact : Str) (hwThreads : Nat) (regime : Regime) (kv : ServingKvEstimate)

def deep : Bool := regime = .r3FarAbove || regime = .r4ExtremeEdge

def hasMtp : Bool := decide (text "mtp" <:+: artifact)

def mtpOn : Bool := hasMtp artifact && !deep regime

/-- The values of `build_suggestions`, once the sizing has returned. -/
def suggestions : Values
  | .stream => if deep regime then text "on" else text "off"
  | .prefetch => text "off"
  | .kernels => text "on"
  | .dense => if mtpOn artifact regime then text "mmap" else []
  | .mtp => if mtpOn artifact regime then text "8" else text "0"
  | .threads => digits (max 1 (hwThreads / 2))
  | .ctx => digits kv.nCtx
  | .sessionMax => digits kv.nSeqMax
  | .apiMode => if mtpOn artifact regime then text "off" else text "on"
  | .sessionMaxPerUser => text "2"
  | .apiRpm => text "120"
  | .apiKeysFile => text "api_keys.txt"
  | .cacheGib => []
  | .think => text "on"
  | .maxReqS => text "0"
  | .host => text "127.0.0.1"
  | .port => text "8080"

end Suggestions

def upper (s : Str) : Str := s.map fun c => if 97 ≤ c && c ≤ 122 then c - 97 + 65 else c

/-- The variable that presets an item. -/
def setupName (key : Key) : Str := upper (text "CNE_SETUP_" ++ key.name)

/-- `read_line` on a line that there is: what it drops at the end. -/
def chomp (line : Str) : Str := line.rdropWhile fun b => b = 13 || b = 32

/-- What a path holds: the object of a configuration, or bytes. -/
inductive Content (F : Type) where
  | config (cfg : Object F)
  | bytes (s : Str)

/-- What the program is started with. `random` is what `/dev/urandom` gives, `creates` which files
can be opened for writing, and `inModels` the path of a file in the models directory. -/
structure Started where
  environ : Environment
  acceptAll : Bool
  isatty : Bool
  random : Option Str
  creates : Str → Bool
  inModels : Str → Str
  inModels_ne : ∀ rel, inModels rel ≠ []
  configPath : Str
  artifact : Artifact

def Started.preset (S : Started) (key : Key) : Str := (S.environ (setupName key)).getD []

def Started.internalKey (S : Started) : Option Str :=
  S.environ (text "CNE_SETUP_INTERNAL_API_KEY")

/-- The exit codes: 130 for an end of the input or a no, 2 for a preset that is not valid, and 134
for the abort at an exception that nothing catches. -/
abbrev Exit := Nat

section Dialog

variable {F : Type} (D : Doubles F) (S : Started)

/-- The prompt for an item until it has a value. -/
def ask (key : Key) (suggestion : Str) : List Str → Except Exit (Str × List Str)
  | [] => .error 130
  | line :: rest =>
    let line := chomp line
    if line.isEmpty then .ok (suggestion, rest)
    else if line = text "!" then .ok ([], rest)
    else if validValue D key line then .ok (line, rest)
    else ask key suggestion rest

/-- One round of the loop over the items. -/
def confirm (key : Key) (suggestion : Str) (lines : List Str) : Except Exit (Str × List Str) :=
  if S.acceptAll || !(S.preset key).isEmpty then
    if (S.preset key).isEmpty then .ok (suggestion, lines)
    else if validValue D key (S.preset key) then .ok (S.preset key, lines)
    else .error 2
  else if !S.isatty then .error 1
  else ask D key suggestion lines

def confirmAll : List Key → Values → List Str → Except Exit (Values × List Str)
  | [], values, lines => .ok (values, lines)
  | key :: keys, values, lines => do
    let (v, lines) ← confirm D S key (values key) lines
    confirmAll keys (Function.update values key v) lines

/-- The answer to `write? [Y/n]`. -/
def agreed (lines : List Str) : Bool :=
  S.acceptAll ||
    match lines with
    | [] => false
    | line :: _ => (chomp line).isEmpty || chomp line = text "y" || chomp line = text "Y"

def apiKeysRel (values : Values) : Str :=
  if (values .apiKeysFile).isEmpty then text "api_keys.txt" else values .apiKeysFile

/-- In API mode the internal key goes into a file of its own, unless there is one. -/
def writeKeys (values : Values) (files : Str → Option (Content F)) :
    Option (Str → Option (Content F)) :=
  if !apiOn values then some files
  else
    let keysPath := S.inModels (apiKeysRel values)
    if (files keysPath).isSome then some files
    else if !S.creates keysPath then none
    else
      let key := Gateway.setupKeyFile S.internalKey S.random
      some (Function.update files keysPath (some (.bytes key)))

/-- What is written once all has been confirmed. The file has been opened, and is empty, when `dump`
throws. -/
def writeFiles (values : Values) (files : Str → Option (Content F)) :
    Exit × (Str → Option (Content F)) :=
  match writeKeys S values files with
  | none => (1, files)
  | some files =>
    if !S.creates S.configPath then (1, files)
    else
      match dumped D values S.artifact.relative with
      | none => (134, Function.update files S.configPath (some (.bytes [])))
      | some cfg => (0, Function.update files S.configPath (some (.config cfg)))

/-- `main` from the suggestions on. -/
def setup (suggested : Values) (lines : List Str) (files : Str → Option (Content F)) :
    Exit × (Str → Option (Content F)) :=
  match confirmAll D S Key.all suggested lines with
  | .error code => (code, files)
  | .ok (values, lines) =>
    if !agreed S lines then (130, files) else writeFiles D S values files

end Dialog

variable {F : Type} {D : Doubles F} {S : Started} {key : Key} {keys : List Key}
  {suggestion v : Str} {suggested values values' : Values} {lines rest : List Str} {code : Exit}
  {files files' : Str → Option (Content F)} {path : Str}

theorem ask_ok (h : ask D key suggestion lines = .ok (v, rest)) :
    v = suggestion ∨ validValue D key v = true := by
  induction lines with
  | nil => cases h
  | cons line lines ih =>
    simp only [ask] at h
    split at h
    · cases h
      exact Or.inl rfl
    · split at h
      · cases h
        exact Or.inr validValue_nil
      · split at h
        · rename_i hvalid
          cases h
          exact Or.inr hvalid
        · exact ih h

/-- A preset decides; otherwise the suggestion is kept or a valid value is given. -/
theorem confirm_ok (h : confirm D S key suggestion lines = .ok (v, rest)) :
    (S.preset key ≠ [] → v = S.preset key) ∧ (v = suggestion ∨ validValue D key v = true) := by
  unfold confirm at h
  split at h
  · split at h
    · rename_i hempty
      cases h
      exact ⟨fun hne => absurd (List.isEmpty_iff.mp hempty) hne, Or.inl rfl⟩
    · split at h
      · rename_i hvalid
        cases h
        exact ⟨fun _ => rfl, Or.inr hvalid⟩
      · cases h
  · rename_i hpreset
    have hnone : S.preset key = [] := by
      by_contra hne
      simp [hne] at hpreset
    split at h
    · cases h
    · exact ⟨fun hne => absurd hnone hne, ask_ok h⟩

/-- The rounds for some items leave the other values as they are. -/
theorem confirmAll_ok (hnd : keys.Nodup)
    (h : confirmAll D S keys values lines = .ok (values', rest)) :
    (∀ key ∉ keys, values' key = values key) ∧
      ∀ key ∈ keys, (S.preset key ≠ [] → values' key = S.preset key) ∧
        (values' key = values key ∨ validValue D key (values' key) = true) := by
  induction keys generalizing values lines with
  | nil =>
    cases h
    exact ⟨fun _ _ => rfl, fun _ hkey => absurd hkey List.not_mem_nil⟩
  | cons k keys ih =>
    obtain ⟨hk, hnd⟩ := List.nodup_cons.mp hnd
    obtain ⟨⟨v, rest'⟩, hv, hrest⟩ := Gguf.bind_ok h
    obtain ⟨hframe, hvalues⟩ := ih hnd hrest
    obtain ⟨hpreset, hvalid⟩ := confirm_ok hv
    have hown : values' k = v := by rw [hframe k hk, Function.update_self]
    refine ⟨?_, ?_⟩
    · intro key hkey
      obtain ⟨hne, hnot⟩ := not_or.mp (fun hor => hkey (List.mem_cons.mpr hor))
      rw [hframe key hnot, Function.update_of_ne hne]
    · intro key hkey
      rcases List.mem_cons.mp hkey with rfl | hkey
      · rw [hown]
        exact ⟨hpreset, hvalid⟩
      · have hne : key ≠ k := fun heq => hk (heq ▸ hkey)
        have hsame : Function.update values k v key = values key := Function.update_of_ne hne _ _
        rw [← hsame]
        exact hvalues key hkey

theorem keys_nodup : Key.all.Nodup := by decide

/-- The key file is new, and no other file is touched. -/
theorem writeKeys_some (h : writeKeys S values files = some files') :
    (∀ path, files path ≠ none → files' path = files path) ∧
      ∀ path, files' path ≠ files path → S.creates path = true := by
  unfold writeKeys at h
  split at h
  · cases h
    exact ⟨fun _ _ => rfl, fun _ hne => absurd rfl hne⟩
  · dsimp only at h
    split at h
    · cases h
      exact ⟨fun _ _ => rfl, fun _ hne => absurd rfl hne⟩
    · rename_i hfresh
      split at h
      · cases h
      · rename_i hcreates
        cases h
        refine ⟨?_, ?_⟩
        · intro path hpath
          apply Function.update_of_ne
          rintro rfl
          exact hfresh (Option.isSome_iff_ne_none.mpr hpath)
        · intro path hne
          have heq : path = S.inModels (apiKeysRel values) := by
            by_contra hother
            exact hne (Function.update_of_ne hother _ _)
          rw [heq]
          simpa using hcreates

/-- What is left of the configuration, by exit code. -/
theorem writeFiles_cases (D : Doubles F) (S : Started) (values : Values)
    (files : Str → Option (Content F)) :
    ((writeFiles D S values files).1 = 1 ∧
        (writeFiles D S values files).2 S.configPath = files S.configPath) ∨
      ((writeFiles D S values files).1 = 134 ∧
        dumps (written D values S.artifact.relative) = false ∧
        (writeFiles D S values files).2 S.configPath = some (.bytes [])) ∨
      ((writeFiles D S values files).1 = 0 ∧
        dumps (written D values S.artifact.relative) = true ∧
        (writeFiles D S values files).2 S.configPath =
          some (.config (written D values S.artifact.relative))) := by
  unfold writeFiles
  split
  · exact Or.inl ⟨rfl, rfl⟩
  · rename_i files' hkeys
    split
    · rename_i hcreates
      refine Or.inl ⟨rfl, ?_⟩
      -- a key file in the place of the configuration would have been opened
      by_contra hne
      have hopened : S.creates S.configPath = true := (writeKeys_some hkeys).2 _ hne
      simp [hopened] at hcreates
    · right
      by_cases hdumps : dumps (written D values S.artifact.relative) = true
      · have hdumped : dumped D values S.artifact.relative =
            some (written D values S.artifact.relative) := if_pos hdumps
        simp only [hdumped]
        exact Or.inr ⟨trivial, hdumps, Function.update_self _ _ _⟩
      · have hdumped : dumped D values S.artifact.relative = none := if_neg hdumps
        simp only [hdumped]
        exact Or.inl ⟨trivial, Bool.eq_false_iff.mpr hdumps, Function.update_self _ _ _⟩

theorem models_ne (rel : Str) : text "models/" ++ rel ≠ [] :=
  List.append_ne_nil_of_left_ne_nil (by decide) rel

/-- A run with `-y` in an empty environment. -/
def unattended (artifact : Artifact) : Started where
  environ := nothingSet
  acceptAll := true
  isatty := false
  random := none
  creates _ := true
  inModels rel := text "models/" ++ rel
  inModels_ne := models_ne
  configPath := text "models/server.json"
  artifact := artifact

theorem writeFiles_zero (hcreates : ∀ path, S.creates path = true)
    (hdumps : dumps (written D values S.artifact.relative) = true) :
    (writeFiles D S values files).1 = 0 := by
  have hkeys : writeKeys S values files ≠ none := by
    unfold writeKeys
    split
    · simp
    · dsimp only
      split
      · simp
      · simp [hcreates]
  have hdumped : dumped D values S.artifact.relative =
      some (written D values S.artifact.relative) := if_pos hdumps
  unfold writeFiles
  split
  · rename_i hnone
    exact absurd hnone hkeys
  · simp [hcreates, hdumped]

/-- With `-y` and no presets the suggestions are kept. -/
theorem confirmAll_unattended {artifact : Artifact} (keys : List Key) (values : Values) :
    confirmAll D (unattended artifact) keys values [] = .ok (values, []) := by
  induction keys generalizing values with
  | nil => rfl
  | cons key keys ih =>
    have hconfirm : confirm D (unattended artifact) key (values key) [] = .ok (values key, []) :=
      rfl
    rw [confirmAll, hconfirm]
    simp only [bind, Except.bind, Function.update_eq_self, ih]

theorem setup_unattended {artifact : Artifact} (suggested : Values)
    (files : Str → Option (Content F)) : setup D (unattended artifact) suggested [] files =
      writeFiles D (unattended artifact) suggested files := by
  simp only [setup, confirmAll_unattended]
  rfl

end NotreEngine.Config
