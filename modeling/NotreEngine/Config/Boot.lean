import NotreEngine.Config.Setup
import NotreEngine.Shell

/-!
# Booting the server

`main` of `cne_server` down to the settings it hands to the engine, run once on the file that
`cne_setup` writes and once as the command line that it prints, by any shell.
-/
namespace NotreEngine.Config

open Gguf (text)
open Decimal (atoi strtol spell isDigit)

inductive Dense where
  | auto | mmap | warm | anon
  deriving DecidableEq

inductive PfMode where
  | off | lookahead | full
  deriving DecidableEq

/-- What the engine is given. Without a policy for the dense weights the memory regime decides. -/
@[ext]
structure Settings (F : Type) where
  capGib : Int
  streamOn : Bool
  dense : Dense
  pfMode : PfMode
  mtpK : Int
  mtpPMin : F
  nCtx : Int
  nThreads : Int
  nSeqMax : Int
  maxSlots : Int
  thinkDefault : Bool
  maxReqS : F
  kernels : Option Str
  apiEnabled : Bool
  rpmPerUser : Int
  sessionMaxPerUser : Int
  apiKeysFile : Option Str

def densePolicy (d : Str) : Dense :=
  if d.isEmpty then .auto
  else if d = text "warm" then .warm
  else if d = text "anon" then .anon
  else .mmap

def prefetchMode (pfs : Str) : PfMode :=
  if pfs = text "1" ∨ pfs = text "lookahead" then .lookahead
  else if pfs = text "full" then .full
  else .off

/-- A number as a `size_t`. -/
def toSize (n : Int) : Int := n % 2 ^ 64

section Boot

variable {F : Type} (D : Doubles F)

def settings (environ : Environment) : Settings F :=
  let env := lookup environ
  { capGib := (env (text "CACHE_GIB")).elim 8 fun v => toSize (strtol v)
    streamOn := (env (text "STREAM")).elim true fun v => decide (atoi v ≠ 0)
    dense := densePolicy ((env (text "DENSE")).getD [])
    pfMode := prefetchMode ((env (text "PREFETCH")).getD [])
    mtpK := max 0 ((env (text "MTP")).elim 0 atoi)
    mtpPMin := (env (text "MTP_P_MIN")).elim D.zero fun v => (D.strtod v).1
    nCtx := max 64 ((env (text "CTX")).elim 1024 atoi)
    nThreads := max 1 ((env (text "THREADS")).elim 8 atoi)
    nSeqMax := (env (text "SESSION_MAX")).elim 1 fun v => if 1 < atoi v then atoi v else 1
    maxSlots := (env (text "SESSION_MAX")).elim 8 fun v =>
      if 0 < toSize (atoi v) then toSize (atoi v) else 8
    thinkDefault := (env (text "THINK")).elim true fun v => decide (v ≠ text "0")
    maxReqS := (env (text "MAX_REQ_S")).elim D.zero fun v => (D.strtod v).1
    kernels := env (text "KERNELS")
    apiEnabled := (env (text "API_MODE")).elim false fun v => decide (v.head? ≠ some 48)
    rpmPerUser := (env (text "API_RPM")).elim 60 fun v => if 0 ≤ atoi v then atoi v else 60
    sessionMaxPerUser := (env (text "SESSION_MAX_PER_USER")).elim 2 fun v =>
      if 0 ≤ atoi v then toSize (atoi v) else 2
    apiKeysFile := env keysFileName }

structure Args where
  config : Option Str := none
  pos : List Str := []

/-- The loop over the arguments; `none` when the server prints something and exits. -/
def parseArgs : List Str → Args → Option Args
  | [], args => some args
  | a :: rest, args =>
    if a = text "--config" then
      match rest with
      | [] => none
      | path :: rest => parseArgs rest { args with config := some path }
    else if a = text "-h" ∨ a = text "--help" then none
    else if a.head? = some 45 then none
    else parseArgs rest { args with pos := args.pos ++ [a] }

/-- A server that got as far as its engine. Without an argument the model is the one that the file
names. -/
@[ext]
structure Running (F : Type) where
  modelArg : Option Str
  settings : Settings F
  host : Str
  port : Int

/-- After the discovery of a file, which may have found none. -/
def discovered (resolve : Str → Str) (environ : Environment) : Option (Object F) → Applied
  | none => { environ := environ }
  | some cfg => applyConfigFile D.dump resolve cfg environ

def start (args : Args) (applied : Applied) : Option (Running F) :=
  if (args.pos[0]?.getD applied.model).isEmpty then none
  else
    some {
      modelArg := args.pos[0]?
      settings := settings D applied.environ
      host := args.pos[1]?.getD
        (if applied.host.isEmpty then text "127.0.0.1" else cString applied.host)
      port := (args.pos[2]?.map atoi).getD (if 0 < applied.port then applied.port else 8080) }

/-- `main`; `found` is the object in the file that is discovered for a `--config` argument. -/
def serve (resolve : Str → Str) (found : Option Str → Option (Object F)) (argv : List Str)
    (environ : Environment) : Option (Running F) :=
  match parseArgs argv {} with
  | none => none
  | some args => start D args (discovered D resolve environ (found args.config))

/-- An artifact below the models directory, which is no flag. -/
structure Artifact where
  path : Str
  relative : Str
  path_gguf : text ".gguf" <:+ path
  path_head : path.head? ≠ some 45
  relative_ne : relative ≠ []

variable (resolve : Str → Str) (artifact : Artifact) (values : Values)

/-- The server on the written file. An empty one is no JSON and is ignored. -/
def bootFile (path : Str) : Option (Running F) :=
  serve D resolve (fun _ => dumped D values artifact.relative) [text "--config", path] nothingSet

/-- What the shell sets in front of a command. -/
def assign (envs : List (Str × Str)) : Environment :=
  envs.foldl (fun environ named => Function.update environ named.1 (some named.2)) nothingSet

/-- The words that a shell reads off a line, if they run the server. The file found on the way is
the written one, or there is none. -/
def runCommand (finds : Option Str → Bool) : Shell.Command → Option (Running F)
  | (_, []) => none
  | (sets, name :: argv) =>
    if name = text "cne_server" then
      serve D resolve (fun config => if finds config then dumped D values artifact.relative else none)
        argv (assign sets)
    else none

/-- The server as the printed line runs it, if there is one. -/
def bootCommand (sh : Shell.Reader) (finds : Option Str → Bool) : Option (Running F) :=
  match printed D values artifact.relative artifact.path with
  | none => none
  | some line =>
    match sh.run line with
    | none => none
    | some command => runCommand D resolve artifact values finds command

end Boot

variable {F : Type} {D : Doubles F} {resolve : Str → Str} {values : Values} {key : Key}
  {name model : Str} {environ : Environment}

/-- What the command sets the variable of an item to. -/
def commandText (values : Values) (key : Key) : Option Str :=
  if (values key).isEmpty then none else some (assignedText values key)

/-- What the file sets it to. -/
def fileText (D : Doubles F) (values : Values) (model : Str) (key : Key) : Option Str :=
  injected D.dump (written D values model) key.name

theorem assign_writesOwn :
    Loop.WritesOwn (fun (environ : Environment) (named : Str × Str) =>
      Function.update environ named.1 (some named.2)) Prod.fst fun named _ => some named.2 where
  self _ _ := Function.update_self _ _ _
  other _ _ _ h := Function.update_of_ne h _ _

theorem mem_envs {named : Str × Str} :
    named ∈ envs values ↔
      (∃ key name, key.knob = some name ∧ values key ≠ [] ∧
        named = (cneName name, assignedText values key)) ∨
      (0 < mtpK values ∧ named = (cneName pMinName, text "0.5")) := by
  rw [envs, List.mem_append]
  apply or_congr
  · constructor
    · intro hmem
      obtain ⟨key, hkey, hmap⟩ := List.mem_filterMap.mp hmem
      obtain ⟨name, hname, rfl⟩ := Option.map_eq_some_iff.mp hmap
      exact ⟨key, name, hname, by simpa using (List.mem_filter.mp hkey).2, rfl⟩
    · rintro ⟨key, name, hname, hne, rfl⟩
      refine List.mem_filterMap.mpr ⟨key, List.mem_filter.mpr ⟨key.mem_all, by simpa using hne⟩, ?_⟩
      rw [hname]
      rfl
  · split_ifs with h <;> simp [h]

/-- Two items have different variables, and none has that of the minimal probability. -/
theorem knobs_nodup : (Key.all.filterMap Key.knob ++ [pMinName]).Nodup := by decide

theorem envs_nodup : ((envs values).map Prod.fst).Nodup := by
  apply List.Nodup.sublist _ (knobs_nodup.map cneName_injective)
  rw [envs, List.map_append, List.map_append, List.map_filterMap, List.map_filterMap]
  apply List.Sublist.append
  · have hset : (Key.all.filter fun key => !(values key).isEmpty).Sublist Key.all :=
      List.filter_sublist
    have hsub := hset.filterMap fun key => key.knob.map cneName
    simpa [Option.map_map, Function.comp_def] using hsub
  · split_ifs <;> simp

theorem assign_of_mem {named : Str × Str} (h : named ∈ envs values) :
    assign (envs values) named.1 = some named.2 :=
  assign_writesOwn.foldl_of_mem envs_nodup h

theorem knob_ne_pMinName (h : key.knob = some name) : name ≠ pMinName := by
  cases key <;> cases h <;> decide

theorem knob_injective {other : Key} (h : key.knob = some name) (ho : other.knob = some name) :
    key = other := by
  have hpair := List.pairwise_filterMap.mp (List.nodup_append.mp knobs_nodup).1
  have hsymm : Std.Symm fun a b : Key => ∀ x, a.knob = some x → ∀ y, b.knob = some y → x ≠ y :=
    ⟨fun a b hab x hx y hy heq => hab y hy x hx heq.symm⟩
  by_contra hne
  exact hpair.forall key.mem_all other.mem_all hne name h name ho rfl

/-- The command sets the variable of an item to its text, unless it is left to the engine. -/
theorem assign_knob (h : key.knob = some name) :
    assign (envs values) (cneName name) = commandText values key := by
  unfold commandText
  split_ifs with hempty
  · apply assign_writesOwn.foldl_of_notMem
    intro hmem
    obtain ⟨named, hnamed, heq⟩ := List.mem_map.mp hmem
    rcases mem_envs.mp hnamed with ⟨other, x, hx, hne, rfl⟩ | ⟨-, rfl⟩
    · obtain rfl := cneName_injective heq
      rw [knob_injective hx h] at hne
      exact hne (by simpa using hempty)
    · exact knob_ne_pMinName h (cneName_injective heq).symm
  · exact assign_of_mem (mem_envs.mpr (.inl ⟨key, name, h, by simpa using hempty, rfl⟩))

theorem assign_pMin :
    assign (envs values) (cneName pMinName) =
      if 0 < mtpK values then some (text "0.5") else none := by
  split_ifs with hmtp
  · exact assign_of_mem (mem_envs.mpr (.inr ⟨hmtp, rfl⟩))
  · apply assign_writesOwn.foldl_of_notMem
    intro hmem
    obtain ⟨named, hnamed, heq⟩ := List.mem_map.mp hmem
    rcases mem_envs.mp hnamed with ⟨key, x, hx, -, rfl⟩ | ⟨h, -⟩
    · exact knob_ne_pMinName hx (cneName_injective heq)
    · exact hmtp h

/-- Nothing else is set. -/
theorem assign_of_ne {k : Str} (hk : ∀ named ∈ envs values, named.1 ≠ k) :
    assign (envs values) k = none := by
  apply assign_writesOwn.foldl_of_notMem
  intro hmem
  obtain ⟨named, hnamed, heq⟩ := List.mem_map.mp hmem
  exact hk named hnamed heq

theorem assign_soeName : assign (envs values) (soeName name) = none := by
  apply assign_of_ne
  intro named hnamed
  rcases mem_envs.mp hnamed with ⟨key, x, -, -, rfl⟩ | ⟨-, rfl⟩ <;> exact cneName_ne_soeName

theorem knob_ne_keysFileName (h : key.knob = some name) : name ≠ keysFileName := by
  cases key <;> cases h <;> decide

theorem assign_keysFile : assign (envs values) (cneName keysFileName) = none := by
  apply assign_of_ne
  intro named hnamed heq
  rcases mem_envs.mp hnamed with ⟨key, x, hx, -, rfl⟩ | ⟨-, rfl⟩
  · exact knob_ne_keysFileName hx (cneName_injective heq)
  · exact absurd heq (by decide)

/-- The environment of the engine on the written file. -/
def fileEnviron (D : Doubles F) (resolve : Str → Str) (values : Values) (model : Str) :
    Environment :=
  (applyConfigFile D.dump resolve (written D values model) nothingSet).environ

/-- The environment of the engine under the printed command. -/
def commandEnviron (D : Doubles F) (resolve : Str → Str) (values : Values) (model : Str)
    (found : Bool) : Environment :=
  if found then
    (applyConfigFile D.dump resolve (written D values model) (assign (envs values))).environ
  else assign (envs values)

theorem lookup_fileEnviron (key : Key) (h : key.knob = some name) :
    lookup (fileEnviron D resolve values model) name = fileText D values model key :=
  lookup_applyConfigFile _ (knob_mem h) rfl

theorem fileText_of_empty (h : values key = []) (hk : key ≠ .sessionMax) :
    fileText D values model key = none := by
  rw [fileText, injected, written_name key hk, entry_of_empty h]
  rfl

theorem lookup_commandEnviron {found : Bool} (key : Key) (h : key.knob = some name) :
    lookup (commandEnviron D resolve values model found) name =
      (commandText values key).or (if found then fileText D values model key else none) := by
  cases found with
  | true =>
    simp only [commandEnviron, if_true]
    rw [← assign_knob h]
    exact lookup_applyConfigFile _ (knob_mem h) assign_soeName
  | false => simp [commandEnviron, lookup, assign_knob h, assign_soeName]

/-- But for the number of sessions, the file adds nothing to the command. -/
theorem lookup_commandEnviron_of_ne {found : Bool} (key : Key) (h : key.knob = some name)
    (hk : key ≠ .sessionMax) :
    lookup (commandEnviron D resolve values model found) name = commandText values key := by
  rw [lookup_commandEnviron key h]
  by_cases hv : values key = []
  · rw [fileText_of_empty hv hk, ite_self, Option.or_none]
  · simp [commandText, hv]

theorem injected_pMin :
    injected D.dump (written D values model) (text "mtp_p_min") =
      if 0 < mtpK values then some (D.dump (D.strtod (text "0.5")).1) else none := by
  rw [injected, written_pMin]
  split_ifs <;> simp [render, Json.dump]

theorem lookup_fileEnviron_pMin :
    lookup (fileEnviron D resolve values model) pMinName =
      if 0 < mtpK values then some (D.dump (D.strtod (text "0.5")).1) else none := by
  rw [← injected_pMin]
  exact lookup_applyConfigFile ⟨text "mtp_p_min", pMinName⟩ (by decide) rfl

theorem lookup_commandEnviron_pMin {found : Bool} :
    lookup (commandEnviron D resolve values model found) pMinName =
      if 0 < mtpK values then some (text "0.5") else none := by
  cases found with
  | true =>
    simp only [commandEnviron, if_true]
    refine (lookup_applyConfigFile ⟨text "mtp_p_min", pMinName⟩ (by decide)
      assign_soeName).trans ?_
    simp only [assign_pMin, injected_pMin]
    split_ifs <;> rfl
  | false => simp [commandEnviron, lookup, assign_pMin, assign_soeName]

/-- The file of keys that the written file names. -/
def fileKeys (resolve : Str → Str) (values : Values) : Option Str :=
  if apiOn values = true ∧ values .apiKeysFile ≠ [] then some (resolve (values .apiKeysFile))
  else none

theorem namedKeysFile_written :
    namedKeysFile resolve (written D values model) = fileKeys resolve values := by
  have hentry : written D values model (Key.name .apiKeysFile) =
      (entry D values .apiKeysFile).map (Json.reread D) := written_name .apiKeysFile (by decide)
  rw [namedKeysFile, show text "api_keys_file" = Key.name .apiKeysFile from rfl, hentry]
  by_cases hv : values .apiKeysFile = []
  · simp [entry, fileKeys, hv]
  · by_cases hon : apiOn values = true <;> simp [entry, fileKeys, hv, hon, Json.reread]

theorem lookup_fileEnviron_keysFile :
    lookup (fileEnviron D resolve values model) keysFileName = fileKeys resolve values :=
  (lookup_keysFile rfl).trans namedKeysFile_written

theorem lookup_commandEnviron_keysFile {found : Bool} :
    lookup (commandEnviron D resolve values model found) keysFileName =
      if found then fileKeys resolve values else none := by
  cases found with
  | true =>
    simp only [commandEnviron, if_true]
    rw [lookup_keysFile assign_soeName, assign_keysFile, namedKeysFile_written]
    rfl
  | false => simp [commandEnviron, lookup, assign_keysFile, assign_soeName]

theorem assignedText_ne_nil (h : values key ≠ []) : assignedText values key ≠ [] := by
  have hswitch : ∀ v, envOn v ≠ [] := by
    intro v
    unfold envOn
    split_ifs <;> decide
  unfold assignedText
  split
  all_goals first | exact hswitch _ | exact h

theorem assign_not_setEmpty : ¬ SetEmpty (assign (envs values)) name := by
  intro hempty
  by_cases hset : cneName name ∈ (envs values).map Prod.fst
  · obtain ⟨named, hnamed, heq⟩ := List.mem_map.mp hset
    have htext := assign_of_mem hnamed
    rw [heq, show assign (envs values) (cneName name) = some [] from hempty] at htext
    rcases mem_envs.mp hnamed with ⟨key, x, -, hne, rfl⟩ | ⟨-, rfl⟩
    · exact assignedText_ne_nil hne (Option.some.inj htext).symm
    · exact absurd (Option.some.inj htext) (by decide)
  · have hnone : assign (envs values) (cneName name) = none :=
      assign_writesOwn.foldl_of_notMem hset
    rw [SetEmpty, hnone] at hempty
    cases hempty

theorem namedKeysFile_ne_nil (hresolve : ∀ path, path ≠ [] → resolve path ≠ []) :
    namedKeysFile resolve (written D values model) ≠ some [] := by
  rw [namedKeysFile_written, fileKeys]
  split_ifs with h
  · intro heq
    exact hresolve _ h.2 (Option.some.inj heq)
  · simp

/-- Both ways the settings are the same whether lookups are remembered or not. -/
theorem results_boot {found : Bool} {names : List Str}
    (hresolve : ∀ path, path ≠ [] → resolve path ≠ []) :
    results (fileEnviron D resolve values model) names (fun _ => none) =
        names.map (lookup (fileEnviron D resolve values model)) ∧
      results (commandEnviron D resolve values model found) names (fun _ => none) =
        names.map (lookup (commandEnviron D resolve values model found)) := by
  have hunset : ∀ name, ¬ SetEmpty nothingSet name := by
    intro name h
    cases h
  constructor
  · apply results_of_not_setEmpty
    exact not_setEmpty_applyConfigFile hunset D.dump_ne (namedKeysFile_ne_nil hresolve)
  · apply results_of_not_setEmpty
    cases found with
    | true =>
      exact not_setEmpty_applyConfigFile (fun _ => assign_not_setEmpty) D.dump_ne
        (namedKeysFile_ne_nil hresolve)
    | false => exact assign_not_setEmpty

end NotreEngine.Config
