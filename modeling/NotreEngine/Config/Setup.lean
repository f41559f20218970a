import NotreEngine.Config.File
import NotreEngine.Utf8

/-!
# The setup program

The items of `cne_setup` with the values it accepts, the configuration it writes and the command
line it prints.
-/
namespace NotreEngine.Config

open Gguf (text)
open Decimal (atoi strtol isDigit isSpace)

/-- The bytes that spell a number: digits, letters, the point and the signs. -/
def isNumeral (b : UInt8) : Bool :=
  isDigit b || 65 ≤ b && b ≤ 90 || 97 ≤ b && b ≤ 122 || b = 46 || b = 43 || b = 45

/-- The doubles, with how the library reads and dumps them: white space and then a number are read,
or nothing is, and the shortest text of a finite double reads back as that double. -/
structure Doubles (F : Type) where
  zero : F
  /-- The value and the number of characters consumed. -/
  strtod : Str → F × Nat
  nonneg : F → Bool
  finite : F → Bool
  dump : F → Str
  finite_zero : finite zero = true
  finite_half : finite (strtod (text "0.5")).1 = true
  dump_ne : ∀ x, dump x ≠ []
  strtod_dump : ∀ x, finite x = true → (strtod (dump x)).1 = x
  strtod_text : ∀ s, nonneg (strtod s).1 = true → (strtod s).2 = 0 ∨
    ∃ front number, s.take (strtod s).2 = front ++ number ∧ number ≠ [] ∧
      (∀ b ∈ front, isSpace b = true) ∧ ∀ b ∈ number, isNumeral b = true

/-- The items in the order of `build_suggestions`. -/
inductive Key where
  | stream | prefetch | kernels | dense | mtp | threads | ctx | sessionMax | apiMode
  | sessionMaxPerUser | apiRpm | apiKeysFile | cacheGib | think | maxReqS | host | port
  deriving DecidableEq

namespace Key

def all : List Key :=
  [stream, prefetch, kernels, dense, mtp, threads, ctx, sessionMax, apiMode, sessionMaxPerUser,
    apiRpm, apiKeysFile, cacheGib, think, maxReqS, host, port]

def name : Key → Str
  | stream => text "stream"
  | prefetch => text "prefetch"
  | kernels => text "kernels"
  | dense => text "dense"
  | mtp => text "mtp"
  | threads => text "threads"
  | ctx => text "ctx"
  | sessionMax => text "session_max"
  | apiMode => text "api_mode"
  | sessionMaxPerUser => text "session_max_per_user"
  | apiRpm => text "api_rpm"
  | apiKeysFile => text "api_keys_file"
  | cacheGib => text "cache_gib"
  | think => text "think"
  | maxReqS => text "max_req_s"
  | host => text "host"
  | port => text "port"

/-- The variable the printed command sets for an item, without `CNE_`. -/
def knob : Key → Option Str
  | stream => some (text "STREAM")
  | prefetch => some (text "PREFETCH")
  | kernels => some (text "KERNELS")
  | dense => some (text "DENSE")
  | mtp => some (text "MTP")
  | threads => some (text "THREADS")
  | ctx => some (text "CTX")
  | sessionMax => some (text "SESSION_MAX")
  | sessionMaxPerUser => some (text "SESSION_MAX_PER_USER")
  | apiMode => some (text "API_MODE")
  | apiRpm => some (text "API_RPM")
  | cacheGib => some (text "CACHE_GIB")
  | think => some (text "THINK")
  | maxReqS => some (text "MAX_REQ_S")
  | apiKeysFile | host | port => none

end Key

/-- The confirmed values; an empty one is the engine's default. -/
abbrev Values := Key → Str

def allDigits (s : Str) : Bool := !s.isEmpty && s.all isDigit

def isOneOf (v : Str) (words : List Str) : Bool := words.contains v

section Setup

variable {F : Type} (D : Doubles F) (values : Values)

def validValue (key : Key) (v : Str) : Bool :=
  match key with
  -- no message is prepared for these two, which ends the check
  | .prefetch | .apiMode => true
  | _ =>
    v.isEmpty ||
    match key with
    | .stream | .think | .kernels =>
      isOneOf v [text "on", text "off", text "0", text "1"]
    | .dense => isOneOf v [text "mmap", text "warm", text "anon"]
    | .host => v.all fun b => b ≠ 32 && b ≠ 9 && b ≠ 47
    | .port => allDigits v && decide (1 ≤ atoi v) && decide (atoi v ≤ 65535)
    | .maxReqS =>
      -- the C string ends with the text or at a NUL in it
      (decide ((D.strtod v).2 = v.length) || v[(D.strtod v).2]? = some 0) &&
        D.nonneg (D.strtod v).1
    | _ =>
      allDigits v &&
      match key with
      | .threads | .ctx => decide (1 ≤ strtol v)
      | .sessionMax | .sessionMaxPerUser => decide (1 ≤ strtol v) && decide (strtol v ≤ 64)
      | .apiRpm => decide (0 ≤ strtol v)
      | .apiKeysFile => v.all fun b => b ≠ 32 && b ≠ 9
      | _ => true

def switchOn (v : Str) : Bool := isOneOf v [text "on", text "1", text "true"]

/-- `api_mode_on`; the loop over the items sets `api_on` to the same again. -/
def apiOn : Bool := switchOn (values .apiMode)

/-- What the loop over the items stores for one of them. -/
def entry (key : Key) : Option (Json F) :=
  let v := values key
  if v.isEmpty then none
  else
    match key with
    | .stream | .think | .kernels | .prefetch => some (.boolean (switchOn v))
    | .apiMode => if switchOn v then some (.boolean true) else none
    | .threads | .ctx | .port | .sessionMax => some (.integer (atoi v))
    | .sessionMaxPerUser | .apiRpm => if apiOn values then some (.integer (atoi v)) else none
    | .maxReqS => some (.float (D.strtod v).1)
    | .mtp => some (.integer (atoi v))
    | .cacheGib => if 0 < atoi v then some (.integer (atoi v)) else none
    | .apiKeysFile => if apiOn values then some (.string v) else none
    | .dense | .host => some (.string v)

def writeItem (cfg : Object F) (key : Key) : Object F :=
  match entry D values key with
  | none => cfg
  | some v => Function.update cfg key.name (some v)

def fewSessions (cfg : Object F) : Bool :=
  match cfg (text "session_max") with
  | some (.integer n) => decide (n < 2)
  | _ => true

/-- API mode needs two lanes. -/
def bumpSessions (cfg : Object F) : Object F :=
  if apiOn values && fewSessions cfg then
    Function.update cfg (text "session_max") (some (.integer 2))
  else cfg

def mtpK : Int := if (values .mtp).isEmpty then 0 else atoi (values .mtp)

def pairPMin (cfg : Object F) : Object F :=
  if 0 < mtpK values then
    Function.update cfg (text "mtp_p_min") (some (.float (D.strtod (text "0.5")).1))
  else cfg

/-- A value dumped into the file and parsed back; a double that is not finite is dumped as null. -/
def Json.reread : Json F → Json F
  | .float x => if D.finite x then .float x else .null
  | v => v

/-- `model` is the path of the artifact from the models directory. -/
def modelOnly (model : Str) : Object F := fun key =>
  if key = text "model" then some (.string model) else none

/-- The object that is dumped into `server.json`, as it is read from there. -/
def written (model : Str) : Object F :=
  let cfg := Key.all.foldl (writeItem D values) (modelOnly model)
  fun key => (pairPMin D values (bumpSessions values cfg) key).map (Json.reread D)

/-- `dump` throws at a string that is no UTF-8. -/
def dumps (cfg : Object F) : Bool :=
  (text "model" :: Key.all.map Key.name).all fun key =>
    match cfg key with
    | some (.string s) => decide (Utf8.Valid s)
    | _ => true

/-- What can be read from `server.json`: nothing if `dump` has thrown, which leaves it empty. -/
def dumped (model : Str) : Option (Object F) :=
  if dumps (written D values model) then some (written D values model) else none

def envOn (v : Str) : Str := if switchOn v then text "1" else text "0"

/-- The text behind the name of an item's variable. -/
def assignedText (key : Key) : Str :=
  match key with
  | .stream | .prefetch | .kernels | .apiMode | .think => envOn (values key)
  | _ => values key

def pMinName : Str := text "MTP_P_MIN"

/-- The variables in front of the printed command, by name and value. -/
def envs : List (Str × Str) :=
  ((Key.all.filter fun key => !(values key).isEmpty).filterMap fun key =>
    key.knob.map fun name => (cneName name, assignedText values key)) ++
    if 0 < mtpK values then [(cneName pMinName, text "0.5")] else []

def printedHost : Str := if (values .host).isEmpty then text "127.0.0.1" else values .host

def printedPort : Str := if (values .port).isEmpty then text "8080" else values .port

/-- The string `envs`. -/
def envsText : Str := (envs values).flatMap fun named => named.1 ++ text "=" ++ named.2 ++ text " "

/-- The line under `what will run`, without the blanks in front. Every `%s` ends at a zero byte. -/
def commandLine (artifact : Str) : Str :=
  cString (envsText values) ++ text "cne_server " ++ cString artifact ++ text " " ++
    cString (printedHost values) ++ text " " ++ cString (printedPort values)

/-- The line, if the program gets there. -/
def printed (model artifact : Str) : Option Str :=
  if dumps (written D values model) then some (commandLine values artifact) else none

end Setup

variable {F : Type} {D : Doubles F} {values : Values} {cfg : Object F} {key : Key}
  {name model : Str}

theorem Key.mem_all (key : Key) : key ∈ Key.all := by
  cases key <;> decide

theorem names_nodup : (Key.all.map Key.name).Nodup := by decide

theorem Key.name_injective : Function.Injective Key.name := fun key other h =>
  List.inj_on_of_nodup_map names_nodup key.mem_all other.mem_all h

/-- A knob of the command is one of the file. -/
theorem knob_mem (h : key.knob = some name) : ⟨key.name, name⟩ ∈ configKnobs := by
  cases key <;> cases h <;> decide

theorem entry_of_empty (h : values key = []) : entry D values key = none := by
  simp [entry, h]

theorem writeItem_writesOwn :
    Loop.WritesOwn (writeItem D values) Key.name fun key was => (entry D values key).or was where
  self cfg key := by
    cases he : entry D values key <;> simp [writeItem, he]
  other cfg key k hk := by
    cases he : entry D values key <;> simp [writeItem, he, Function.update_of_ne hk]

theorem bumpSessions_of_ne {k : Str} (hk : k ≠ Key.name .sessionMax) :
    bumpSessions values cfg k = cfg k := by
  unfold bumpSessions
  split_ifs
  · exact Function.update_of_ne hk _ _
  · rfl

theorem pairPMin_of_ne {k : Str} (hk : k ≠ text "mtp_p_min") :
    pairPMin D values cfg k = cfg k := by
  unfold pairPMin
  split_ifs
  · exact Function.update_of_ne hk _ _
  · rfl

theorem name_ne_model : key.name ≠ text "model" := by
  cases key <;> decide

theorem name_ne_pMin : key.name ≠ text "mtp_p_min" := by
  cases key <;> decide

/-- The loop over the items leaves the entry of each under its name. -/
theorem foldl_writeItem :
    Key.all.foldl (writeItem D values) (modelOnly model) key.name = entry D values key := by
  rw [writeItem_writesOwn.foldl_of_mem names_nodup key.mem_all, modelOnly, if_neg name_ne_model,
    Option.or_none]

theorem written_name (key : Key) (hk : key ≠ .sessionMax) :
    written D values model key.name = (entry D values key).map (Json.reread D) := by
  have hne : key.name ≠ Key.name .sessionMax := fun h => hk (Key.name_injective h)
  simp only [written]
  rw [pairPMin_of_ne name_ne_pMin, bumpSessions_of_ne hne, foldl_writeItem]

theorem fewSessions_eq (h : cfg (text "session_max") = entry D values .sessionMax) :
    fewSessions cfg = decide (atoi (values .sessionMax) < 2) := by
  cases hv : values .sessionMax with
  | nil =>
    rw [entry_of_empty hv] at h
    simp only [fewSessions, h]
    decide
  | cons b s =>
    simp only [entry, hv, List.isEmpty_cons] at h
    simp only [fewSessions, h]
    rfl

/-- In API mode the file asks for two lanes at least. -/
theorem written_sessionMax :
    written D values model (Key.name .sessionMax) =
      if apiOn values = true ∧ atoi (values .sessionMax) < 2 then some (.integer 2)
      else (entry D values .sessionMax).map (Json.reread D) := by
  have hentry : Key.all.foldl (writeItem D values) (modelOnly model) (Key.name .sessionMax) =
      entry D values .sessionMax := foldl_writeItem
  simp only [written]
  rw [pairPMin_of_ne name_ne_pMin, bumpSessions, fewSessions_eq hentry]
  split_ifs with hbump hboth hboth
  · rw [show Key.name .sessionMax = text "session_max" from rfl, Function.update_self]
    rfl
  · simp_all
  · simp_all
  · rw [hentry]

theorem written_pMin :
    written D values model (text "mtp_p_min") =
      if 0 < mtpK values then some (.float (D.strtod (text "0.5")).1) else none := by
  have hfree : text "mtp_p_min" ∉ Key.all.map Key.name := by decide
  simp only [written]
  unfold pairPMin
  split_ifs
  · simp [Json.reread, D.finite_half]
  · have hne : text "mtp_p_min" ≠ Key.name .sessionMax := name_ne_pMin.symm
    rw [bumpSessions_of_ne hne, writeItem_writesOwn.foldl_of_notMem hfree]
    rfl

theorem written_model : written D values model (text "model") = some (.string model) := by
  have hfree : text "model" ∉ Key.all.map Key.name := by decide
  have hne : text "model" ≠ Key.name .sessionMax := name_ne_model.symm
  simp only [written]
  rw [pairPMin_of_ne (by decide), bumpSessions_of_ne hne,
    writeItem_writesOwn.foldl_of_notMem hfree]
  rfl

/-- The strings in the file besides the model. -/
theorem written_string {s : Str} (key : Key) :
    written D values model key.name = some (.string s) ↔ values key = s ∧ s ≠ [] ∧
      (key = .dense ∨ key = .host ∨ key = .apiKeysFile ∧ apiOn values = true) := by
  by_cases hk : key = .sessionMax
  · subst hk
    rw [written_sessionMax]
    by_cases hv : values .sessionMax = [] <;> split_ifs <;> simp [entry, hv, Json.reread]
  · rw [written_name key hk]
    by_cases hv : values key = []
    · rw [entry_of_empty hv]
      simp [hv]
      tauto
    · cases key with
      | sessionMax => exact absurd rfl hk
      | dense | host =>
        simp [entry, hv, Json.reread]
        rintro rfl
        exact hv
      | apiKeysFile =>
        by_cases hon : apiOn values = true <;> simp [entry, hv, hon, Json.reread]
        rintro rfl
        exact hv
      | maxReqS =>
        by_cases hfin : D.finite (D.strtod (values .maxReqS)).1 = true <;>
          simp [entry, hv, hfin, Json.reread]
      | _ =>
        simp only [entry, List.isEmpty_iff, hv, if_false]
        try split_ifs
        all_goals simp [Json.reread]

theorem dumps_iff : dumps cfg = true ↔
    ∀ k ∈ text "model" :: Key.all.map Key.name, ∀ s, cfg k = some (.string s) → Utf8.Valid s := by
  rw [dumps, List.all_eq_true]
  apply forall₂_congr
  intro k _
  rcases hk : cfg k with _ | ⟨_ | _⟩ <;> simp

/-- The file is written exactly if every string for it is UTF-8. -/
theorem dumps_written : dumps (written D values model) = true ↔
    Utf8.Valid model ∧ Utf8.Valid (values .dense) ∧ Utf8.Valid (values .host) ∧
      (apiOn values = true → Utf8.Valid (values .apiKeysFile)) := by
  rw [dumps_iff]
  simp only [List.forall_mem_cons, List.forall_mem_map, written_model, written_string]
  have hnil : Utf8.Valid [] := Utf8.valid_nil
  constructor
  · rintro ⟨hmodel, hkeys⟩
    have hkey : ∀ key : Key, (key = .dense ∨ key = .host ∨ key = .apiKeysFile ∧
        apiOn values = true) → Utf8.Valid (values key) := by
      intro key hk
      by_cases hv : values key = []
      · rw [hv]
        exact hnil
      · exact hkeys key key.mem_all _ ⟨rfl, hv, hk⟩
    exact ⟨hmodel _ rfl, hkey _ (.inl rfl), hkey _ (.inr (.inl rfl)),
      fun hon => hkey _ (.inr (.inr ⟨rfl, hon⟩))⟩
  · rintro ⟨hmodel, hdense, hhost, hkeys⟩
    refine ⟨fun s hs => ?_, ?_⟩
    · cases hs
      exact hmodel
    · rintro key - s ⟨rfl, -, rfl | rfl | ⟨rfl, hon⟩⟩
      · exact hdense
      · exact hhost
      · exact hkeys hon

end NotreEngine.Config
