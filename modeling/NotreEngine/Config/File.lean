import NotreEngine.Config.Env
import NotreEngine.Config.Json
import NotreEngine.Loop

/-!
# The configuration file

`apply_config_file` injects the settings of a JSON object as variables of the environment that the
engine reads through `cne::env`. Paths are resolved by a parameter.
-/
namespace NotreEngine.Config

open Gguf (text)

structure ConfigKnob where
  jsonKey : Str
  envName : Str
  deriving DecidableEq

/-- `g_config_knobs`. -/
def configKnobs : List ConfigKnob :=
  [⟨text "stream", text "STREAM"⟩, ⟨text "think", text "THINK"⟩,
    ⟨text "kernels", text "KERNELS"⟩, ⟨text "mtp", text "MTP"⟩,
    ⟨text "mtp_p_min", text "MTP_P_MIN"⟩, ⟨text "threads", text "THREADS"⟩,
    ⟨text "ctx", text "CTX"⟩, ⟨text "cache_gib", text "CACHE_GIB"⟩,
    ⟨text "dense", text "DENSE"⟩, ⟨text "max_req_s", text "MAX_REQ_S"⟩,
    ⟨text "session_max", text "SESSION_MAX"⟩, ⟨text "api_mode", text "API_MODE"⟩,
    ⟨text "api_rpm", text "API_RPM"⟩,
    ⟨text "session_max_per_user", text "SESSION_MAX_PER_USER"⟩,
    ⟨text "prefetch", text "PREFETCH"⟩]

/-- A JSON object by its keys. -/
abbrev Object (F : Type) := Str → Option (Json F)

/-- What `apply_config_file` leaves behind. -/
structure Applied where
  environ : Environment
  model : Str := []
  host : Str := []
  port : Int := 0
  apiKeys : List Str := []

section Apply

variable {F : Type} (dumpFloat : F → Str)

/-- The text a value is injected as. -/
def render : Json F → Str
  | .boolean b => if b then text "1" else text "0"
  | v => v.dump dumpFloat

/-- One turn of the loop over the knobs. -/
def applyKnob (cfg : Object F) (environ : Environment) (kn : ConfigKnob) : Environment :=
  match cfg kn.jsonKey with
  | none => environ
  | some .null => environ
  | some v =>
    -- only the current spelling is consulted
    match environ (cneName kn.envName) with
    | some _ => environ
    | none => Function.update environ (cneName kn.envName) (some (render dumpFloat v))

def keysFileName : Str := text "API_KEYS_FILE"

/-- `resolve` makes a path absolute that is relative to the directory of the file. -/
def applyKeysFile (resolve : Str → Str) (cfg : Object F) (environ : Environment) : Environment :=
  match cfg (text "api_keys_file") with
  | some (.string path) =>
    match environ (cneName keysFileName) with
    | some _ => environ
    | none =>
      Function.update environ (cneName keysFileName)
        (some (if path.isEmpty then path else resolve path))
  | _ => environ

def stringAt (cfg : Object F) (key : Str) : Str :=
  match cfg key with
  | some (.string s) => s
  | _ => []

def portOf (cfg : Object F) : Int :=
  match cfg (text "port") with
  | some (.integer n) => n.bmod (2 ^ 32)
  | _ => 0

def apiKeysOf (cfg : Object F) : List Str :=
  match cfg (text "api_keys") with
  | some (.array items) =>
    items.filterMap fun v =>
      match v with
      | .string key => if key.isEmpty then none else some key
      | _ => none
  | _ => []

def applyConfigFile (resolve : Str → Str) (cfg : Object F) (environ : Environment) : Applied where
  environ := applyKeysFile resolve cfg (configKnobs.foldl (applyKnob dumpFloat cfg) environ)
  model := stringAt cfg (text "model")
  host := stringAt cfg (text "host")
  port := portOf cfg
  apiKeys := apiKeysOf cfg

/-- A value as its reader means it: the characters of a string, without quotes. -/
def plain : Json F → Str
  | .boolean b => if b then text "1" else text "0"
  | .string s => s
  | v => v.dump dumpFloat

/-- What a knob should read: the user's value, else the one of the file. -/
def layered (cfg : Object F) (environ : Environment) (kn : ConfigKnob) : Option Str :=
  (lookup environ kn.envName).or
    (match cfg kn.jsonKey with
    | none => none
    | some .null => none
    | some v => some (plain dumpFloat v))

/-- The variable is set, or the file says nothing, or what it says is neither a string nor set under
the legacy spelling to anything else. -/
def KeepsLayers (cfg : Object F) (environ : Environment) (kn : ConfigKnob) : Prop :=
  environ (cneName kn.envName) ≠ none ∨ cfg kn.jsonKey = none ∨ cfg kn.jsonKey = some .null ∨
    ∃ v, cfg kn.jsonKey = some v ∧
      match environ (soeName kn.envName) with
      | none => ∀ s, v ≠ .string s
      | some user => user = render dumpFloat v

end Apply

variable {F : Type} {dumpFloat : F → Str} {cfg : Object F} {environ : Environment}
  {kn : ConfigKnob} {v : Json F} {key name : Str}

/-- What the file sets a knob's variable to. -/
def injected (dumpFloat : F → Str) (cfg : Object F) (jsonKey : Str) : Option Str :=
  match cfg jsonKey with
  | none => none
  | some .null => none
  | some v => some (render dumpFloat v)

theorem applyKnob_self :
    applyKnob dumpFloat cfg environ kn (cneName kn.envName) =
      (environ (cneName kn.envName)).or (injected dumpFloat cfg kn.jsonKey) := by
  cases he : environ (cneName kn.envName) with
  | some user =>
    rcases hc : cfg kn.jsonKey with _ | ⟨_ | _⟩ <;> simp [applyKnob, hc, he]
  | none =>
    rcases hc : cfg kn.jsonKey with _ | ⟨_ | _⟩ <;> simp [applyKnob, injected, hc, he]

theorem applyKnob_of_ne (h : key ≠ cneName kn.envName) :
    applyKnob dumpFloat cfg environ kn key = environ key := by
  cases he : environ (cneName kn.envName) with
  | some user =>
    rcases hc : cfg kn.jsonKey with _ | ⟨_ | _⟩ <;> simp [applyKnob, hc, he]
  | none =>
    rcases hc : cfg kn.jsonKey with _ | ⟨_ | _⟩ <;>
      simp [applyKnob, hc, he, Function.update_of_ne h]

/-- Every knob sets its own variable and no other. -/
theorem applyKnob_writesOwn :
    Loop.WritesOwn (applyKnob dumpFloat cfg) (fun kn => cneName kn.envName)
      fun kn was => was.or (injected dumpFloat cfg kn.jsonKey) where
  self _ _ := applyKnob_self
  other _ _ _ := applyKnob_of_ne

theorem envNames_nodup : (configKnobs.map fun kn => cneName kn.envName).Nodup := by decide

theorem keysFileName_not_mem :
    cneName keysFileName ∉ configKnobs.map fun kn => cneName kn.envName := by decide

theorem applyKeysFile_of_ne {resolve : Str → Str} (h : key ≠ cneName keysFileName) :
    applyKeysFile resolve cfg environ key = environ key := by
  cases he : environ (cneName keysFileName) with
  | some user =>
    rcases hc : cfg (text "api_keys_file") with _ | ⟨_ | _⟩ <;> simp [applyKeysFile, hc, he]
  | none =>
    rcases hc : cfg (text "api_keys_file") with _ | ⟨_ | _⟩ <;>
      simp [applyKeysFile, hc, he, Function.update_of_ne h]

/-- The variable of a knob once the file has been applied. -/
theorem applyConfigFile_cneName {resolve : Str → Str} (hkn : kn ∈ configKnobs) :
    (applyConfigFile dumpFloat resolve cfg environ).environ (cneName kn.envName) =
      (environ (cneName kn.envName)).or (injected dumpFloat cfg kn.jsonKey) := by
  simp only [applyConfigFile]
  rw [applyKeysFile_of_ne, applyKnob_writesOwn.foldl_of_mem envNames_nodup hkn]
  intro heq
  exact keysFileName_not_mem (List.mem_map.mpr ⟨kn, hkn, heq⟩)

theorem applyConfigFile_soeName {resolve : Str → Str} :
    (applyConfigFile dumpFloat resolve cfg environ).environ (soeName name) =
      environ (soeName name) := by
  simp only [applyConfigFile]
  rw [applyKeysFile_of_ne cneName_ne_soeName.symm]
  apply applyKnob_writesOwn.foldl_of_notMem
  intro hmem
  obtain ⟨kn, -, heq⟩ := List.mem_map.mp hmem
  exact cneName_ne_soeName heq

theorem lookup_applyConfigFile {resolve : Str → Str} (kn : ConfigKnob) (hkn : kn ∈ configKnobs)
    (hs : environ (soeName kn.envName) = none) :
    lookup (applyConfigFile dumpFloat resolve cfg environ).environ kn.envName =
      (environ (cneName kn.envName)).or (injected dumpFloat cfg kn.jsonKey) := by
  rw [lookup, applyConfigFile_cneName hkn, applyConfigFile_soeName, hs, Option.or_none]

/-- The file of keys the file names. -/
def namedKeysFile (resolve : Str → Str) (cfg : Object F) : Option Str :=
  match cfg (text "api_keys_file") with
  | some (.string path) => some (if path.isEmpty then path else resolve path)
  | _ => none

/-- The variable for the file of keys, which is no knob. -/
theorem applyConfigFile_keysFile {resolve : Str → Str} :
    (applyConfigFile dumpFloat resolve cfg environ).environ (cneName keysFileName) =
      (environ (cneName keysFileName)).or (namedKeysFile resolve cfg) := by
  have hknobs : configKnobs.foldl (applyKnob dumpFloat cfg) environ (cneName keysFileName) =
      environ (cneName keysFileName) := applyKnob_writesOwn.foldl_of_notMem keysFileName_not_mem
  simp only [applyConfigFile]
  cases he : environ (cneName keysFileName) with
  | some user =>
    rcases hc : cfg (text "api_keys_file") with _ | ⟨_ | _⟩ <;> simp [applyKeysFile, hc, hknobs, he]
  | none =>
    rcases hc : cfg (text "api_keys_file") with _ | ⟨_ | _⟩ <;>
      simp [applyKeysFile, namedKeysFile, hc, hknobs, he]

theorem lookup_keysFile {resolve : Str → Str} (hs : environ (soeName keysFileName) = none) :
    lookup (applyConfigFile dumpFloat resolve cfg environ).environ keysFileName =
      (environ (cneName keysFileName)).or (namedKeysFile resolve cfg) := by
  rw [lookup, applyConfigFile_keysFile, applyConfigFile_soeName, hs, Option.or_none]

theorem Json.dump_ne_nil (hdump : ∀ x, dumpFloat x ≠ []) : v.dump dumpFloat ≠ [] := by
  cases v with
  | null => simp [Json.dump, text]
  | boolean b => cases b <;> simp [Json.dump, text]
  | integer n => exact Decimal.spell_ne_nil
  | float x => exact hdump x
  | _ => simp [Json.dump, Json.quote]

theorem injected_ne_nil (hdump : ∀ x, dumpFloat x ≠ []) : injected dumpFloat cfg key ≠ some [] := by
  cases hk : cfg key with
  | none => simp [injected, hk]
  | some v =>
    cases v with
    | null => simp [injected, hk]
    | boolean b => cases b <;> simp [injected, hk, render] <;> decide
    | _ =>
      simp only [injected, hk, render, ne_eq, Option.some.injEq]
      exact Json.dump_ne_nil hdump

/-- The file sets no variable to the empty string, but for a file of keys without a name. -/
theorem not_setEmpty_applyConfigFile {resolve : Str → Str}
    (hbase : ∀ name, ¬ SetEmpty environ name) (hdump : ∀ x, dumpFloat x ≠ [])
    (hkeys : namedKeysFile resolve cfg ≠ some []) :
    ¬ SetEmpty (applyConfigFile dumpFloat resolve cfg environ).environ name := by
  have hor : ∀ {name : Str} {o : Option Str}, o ≠ some [] →
      (environ (cneName name)).or o ≠ some [] := by
    intro name o ho
    cases he : environ (cneName name) with
    | none => exact ho
    | some user => exact fun h => hbase name (he.trans h)
  unfold SetEmpty
  by_cases hname : name = keysFileName
  · rw [hname, applyConfigFile_keysFile]
    exact hor hkeys
  · by_cases hkn : ∃ kn ∈ configKnobs, kn.envName = name
    · obtain ⟨kn, hmem, rfl⟩ := hkn
      rw [applyConfigFile_cneName hmem]
      exact hor (injected_ne_nil hdump)
    · simp only [applyConfigFile]
      rw [applyKeysFile_of_ne fun heq => hname (cneName_injective heq),
        applyKnob_writesOwn.foldl_of_notMem]
      · exact hbase name
      · intro hmem
        obtain ⟨kn, hin, heq⟩ := List.mem_map.mp hmem
        exact hkn ⟨kn, hin, cneName_injective heq⟩

/-- A first lookup is an uncached one. -/
theorem env_first : (env environ name fun _ => none).1 = lookup environ name := by
  have hnone : Remembers environ [] fun _ => none := fun m => by simp
  exact (env_spec _ hnone).2.mpr fun h => List.not_mem_nil h.1

theorem render_eq_plain_iff : render dumpFloat v = plain dumpFloat v ↔ ∀ s, v ≠ .string s := by
  cases v with
  | string s =>
    refine iff_of_false (Json.quote_ne s ∘ Eq.trans ?_) fun h => h s rfl
    simp only [render, Json.dump]
  | _ => simp [render, plain]

theorem layered_of_injected (hc : environ (cneName kn.envName) = none)
    (hk : cfg kn.jsonKey = some v) (hv : v ≠ .null) :
    layered dumpFloat cfg environ kn =
      (environ (soeName kn.envName)).or (some (plain dumpFloat v)) := by
  cases v with
  | null => exact absurd rfl hv
  | _ => simp [layered, lookup, hc, hk]

theorem injected_of_ne_null (hk : cfg kn.jsonKey = some v) (hv : v ≠ .null) :
    injected dumpFloat cfg kn.jsonKey = some (render dumpFloat v) := by
  cases v with
  | null => exact absurd rfl hv
  | _ => simp [injected, hk]

/-- What a knob first reads is the user's value, else the one of the file, exactly when the layers
are kept. -/
theorem env_applyConfigFile_iff (dumpFloat : F → Str) (resolve : Str → Str) (cfg : Object F)
    (environ : Environment) (kn : ConfigKnob) (hkn : kn ∈ configKnobs) :
    (env (applyConfigFile dumpFloat resolve cfg environ).environ kn.envName fun _ => none).1 =
        layered dumpFloat cfg environ kn ↔
      KeepsLayers dumpFloat cfg environ kn := by
  rw [env_first, lookup, applyConfigFile_cneName hkn, applyConfigFile_soeName]
  cases hc : environ (cneName kn.envName) with
  | some user => simp [layered, lookup, KeepsLayers, hc]
  | none =>
    rcases hk : cfg kn.jsonKey with _ | v
    · simp [layered, lookup, injected, KeepsLayers, hc, hk]
    · by_cases hv : v = .null
      · simp [layered, lookup, injected, KeepsLayers, hc, hk, hv]
      · rw [layered_of_injected hc hk hv, injected_of_ne_null hk hv]
        cases hs : environ (soeName kn.envName) with
        | none =>
          simp only [Option.none_or, Option.or_none, Option.some.injEq, render_eq_plain_iff]
          simp [KeepsLayers, hc, hk, hv, hs]
        | some user =>
          simp only [Option.none_or, Option.some_or, Option.some.injEq]
          simp [KeepsLayers, hc, hk, hv, hs, eq_comm]

def nothingSet : Environment := fun _ => none

/-- A file of one number. -/
def threadsFile : Object Empty := fun key =>
  if key = text "threads" then some (.integer 6) else none

theorem env_applyConfigFile_threads :
    (env (applyConfigFile Empty.elim id threadsFile nothingSet).environ (text "THREADS")
        fun _ => none).1 =
      layered Empty.elim threadsFile nothingSet ⟨text "threads", text "THREADS"⟩ := by
  have hkn : (⟨text "threads", text "THREADS"⟩ : ConfigKnob) ∈ configKnobs := by decide
  refine (env_applyConfigFile_iff Empty.elim id threadsFile nothingSet _ hkn).mpr ?_
  exact Or.inr (Or.inr (Or.inr ⟨.integer 6, rfl, nofun⟩))

/-- The policy `warm` for the dense weights, as the setup writes it. -/
def warmFile : Object Empty := fun key =>
  if key = text "dense" then some (.string (text "warm")) else none

/-- The file's `"warm"` is read with its quotes. -/
theorem not_env_applyConfigFile :
    ¬ ∀ (dumpFloat : Empty → Str) (resolve : Str → Str) (cfg : Object Empty)
      (environ : Environment), ∀ kn ∈ configKnobs,
      (env (applyConfigFile dumpFloat resolve cfg environ).environ kn.envName fun _ => none).1 =
        layered dumpFloat cfg environ kn := by
  intro h
  have heq := h Empty.elim id warmFile nothingSet ⟨text "dense", text "DENSE"⟩ (by decide)
  exact absurd heq (by decide)

end NotreEngine.Config
