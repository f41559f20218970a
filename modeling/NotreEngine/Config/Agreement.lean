import NotreEngine.Config.Printed

/-!
# Setup and server

When the written file and the printed command start the same server. The settings of most items
always agree; the others are taken one at a time.
-/
namespace NotreEngine.Config

open Gguf (text)
open Decimal (atoi strtol spell isDigit)

variable {F : Type} {D : Doubles F} {resolve : Str → Str} {values : Values} {key : Key}
  {name model v : Str} {environ : Environment} {found : Bool}

section Texts

theorem fileText_switch
    (hk : key = .stream ∨ key = .think ∨ key = .kernels ∨ key = .prefetch) :
    fileText D values model key = commandText values key := by
  have hne : key ≠ .sessionMax := by
    rintro rfl
    simp at hk
  rw [fileText, injected, written_name _ hne]
  by_cases hv : values key = []
  · simp [entry, commandText, hv]
  · cases hs : switchOn (values key) <;> rcases hk with rfl | rfl | rfl | rfl <;>
      simp [entry, commandText, assignedText, envOn, hv, hs, Json.reread, render]

theorem fileText_number (hk : key = .mtp ∨ key = .threads ∨ key = .ctx) :
    fileText D values model key =
      if values key = [] then none else some (spell (atoi (values key))) := by
  have hne : key ≠ .sessionMax := by
    rintro rfl
    simp at hk
  rw [fileText, injected, written_name _ hne]
  by_cases hv : values key = []
  · simp [entry, hv]
  · rcases hk with rfl | rfl | rfl <;> simp [entry, hv, Json.reread, render, Json.dump]

theorem fileText_sessionMax :
    fileText D values model .sessionMax =
      if apiOn values = true ∧ atoi (values .sessionMax) < 2 then some (spell 2)
      else if values .sessionMax = [] then none
      else some (spell (atoi (values .sessionMax))) := by
  rw [fileText, injected, written_sessionMax]
  by_cases hv : values .sessionMax = []
  · split_ifs <;> simp [entry, hv, render, Json.dump]
  · split_ifs <;> simp [entry, hv, Json.reread, render, Json.dump]

theorem fileText_apiMode :
    fileText D values model .apiMode = if apiOn values then some (text "1") else none := by
  rw [fileText, injected, written_name _ (by decide)]
  by_cases hv : values .apiMode = []
  · have hoff : switchOn [] = false := by decide
    simp [entry, apiOn, hv, hoff]
  · cases hs : switchOn (values .apiMode) <;>
      simp [entry, apiOn, hv, hs, Json.reread, render]

theorem fileText_tenancy (hk : key = .sessionMaxPerUser ∨ key = .apiRpm) :
    fileText D values model key =
      if apiOn values = true ∧ values key ≠ [] then some (spell (atoi (values key))) else none := by
  have hne : key ≠ .sessionMax := by
    rintro rfl
    simp at hk
  rw [fileText, injected, written_name _ hne]
  by_cases hv : values key = []
  · simp [entry, hv]
  · by_cases hon : apiOn values = true <;> rcases hk with rfl | rfl <;>
      simp [entry, hv, hon, Json.reread, render, Json.dump]

theorem fileText_cacheGib :
    fileText D values model .cacheGib =
      if 0 < atoi (values .cacheGib) then some (spell (atoi (values .cacheGib))) else none := by
  rw [fileText, injected, written_name _ (by decide)]
  by_cases hv : values .cacheGib = []
  · have hzero : ¬ 0 < atoi [] := by decide
    simp [entry, hv, hzero]
  · by_cases hpos : 0 < atoi (values .cacheGib) <;>
      simp [entry, hv, hpos, Json.reread, render, Json.dump]

theorem fileText_maxReqS :
    fileText D values model .maxReqS =
      if values .maxReqS = [] then none
      else if D.finite (D.strtod (values .maxReqS)).1 = true then
        some (D.dump (D.strtod (values .maxReqS)).1)
      else none := by
  rw [fileText, injected, written_name _ (by decide)]
  by_cases hv : values .maxReqS = []
  · simp [entry, hv]
  · by_cases hfin : D.finite (D.strtod (values .maxReqS)).1 = true <;>
      simp [entry, hv, hfin, Json.reread, render, Json.dump]

theorem fileText_dense :
    fileText D values model .dense =
      if values .dense = [] then none else some (Json.quote (values .dense)) := by
  rw [fileText, injected, written_name _ (by decide)]
  by_cases hv : values .dense = []
  · simp [entry, hv]
  · simp [entry, hv, Json.reread, render, Json.dump]

end Texts

section Settings

theorem toSize_of_nonneg {n : Int} (h : 0 ≤ n) (hlt : n < 2 ^ 63) : toSize n = n := by
  unfold toSize
  omega

/-- Quotes are no policy. -/
theorem densePolicy_quote : densePolicy (Json.quote v) = .mmap := by
  have hne : ∀ word : Str, word.head? ≠ some 34 → Json.quote v ≠ word := by
    intro word hword heq
    exact hword (heq ▸ rfl)
  rw [densePolicy, if_neg (by simp [Json.quote]), if_neg (hne _ (by decide)),
    if_neg (hne _ (by decide))]

theorem dense_agree_iff :
    (settings D (fileEnviron D resolve values model)).dense =
        (settings D (commandEnviron D resolve values model found)).dense ↔
      values .dense ≠ text "warm" ∧ values .dense ≠ text "anon" := by
  simp only [settings]
  rw [lookup_fileEnviron .dense rfl, fileText_dense,
    lookup_commandEnviron_of_ne .dense rfl (by decide), commandText]
  by_cases hv : values .dense = []
  · simp [hv]
    decide
  · simp only [hv, if_false, List.isEmpty_iff, Option.getD_some, densePolicy_quote, assignedText]
    by_cases hwarm : values .dense = text "warm"
    · simp [hwarm, densePolicy]
      decide
    · by_cases hanon : values .dense = text "anon" <;> simp [hv, hwarm, hanon, densePolicy]
      decide

theorem capGib_agree_iff (hvalid : validValue D .cacheGib (values .cacheGib) = true) :
    (settings D (fileEnviron D resolve values model)).capGib =
        (settings D (commandEnviron D resolve values model found)).capGib ↔
      values .cacheGib = [] ∨
        0 < atoi (values .cacheGib) ∧ strtol (values .cacheGib) = atoi (values .cacheGib) := by
  simp only [settings]
  rw [lookup_fileEnviron .cacheGib rfl, fileText_cacheGib,
    lookup_commandEnviron_of_ne .cacheGib rfl (by decide), commandText]
  by_cases hv : values .cacheGib = []
  · have hzero : ¬ 0 < atoi [] := by decide
    simp [hv, hzero]
  · have hdigits : (values .cacheGib).all isDigit = true := by
      simp only [validValue, allDigits] at hvalid
      simp_all
    have hnonneg := Decimal.strtol_nonneg hdigits
    have hbounds := Decimal.strtol_bounds (values .cacheGib)
    have hatoi := Decimal.atoi_bounds (values .cacheGib)
    have hcommand := toSize_of_nonneg hnonneg hbounds.2
    simp only [List.isEmpty_iff, hv, if_false, Option.elim_some, assignedText, false_or, hcommand]
    by_cases hpos : 0 < atoi (values .cacheGib)
    · rw [if_pos hpos, Option.elim_some, Decimal.strtol_spell_atoi,
        toSize_of_nonneg hpos.le (by omega)]
      exact ⟨fun h => ⟨hpos, h.symm⟩, fun h => h.2.symm⟩
    · rw [if_neg hpos, Option.elim_none]
      refine ⟨fun h => (hpos ?_).elim, fun h => (hpos h.1).elim⟩
      rw [atoi, ← h]
      decide

theorem maxReqS_agree_iff :
    (settings D (fileEnviron D resolve values model)).maxReqS =
        (settings D (commandEnviron D resolve values model found)).maxReqS ↔
      values .maxReqS = [] ∨ D.finite (D.strtod (values .maxReqS)).1 = true := by
  simp only [settings]
  rw [lookup_fileEnviron .maxReqS rfl, fileText_maxReqS,
    lookup_commandEnviron_of_ne .maxReqS rfl (by decide), commandText]
  by_cases hv : values .maxReqS = []
  · simp [hv]
  · by_cases hfin : D.finite (D.strtod (values .maxReqS)).1 = true
    · simp [hv, hfin, D.strtod_dump _ hfin, assignedText]
    · simp only [hv, hfin, List.isEmpty_iff, Bool.false_eq_true, if_false, Option.elim_none,
        Option.elim_some, assignedText, false_or]
      refine iff_of_false (fun h => hfin ?_) (by simp)
      rw [← h, D.finite_zero]

/-- The lanes and the slots agree together. -/
theorem sessions_agree_iff :
    ((settings D (fileEnviron D resolve values model)).nSeqMax =
          (settings D (commandEnviron D resolve values model found)).nSeqMax ∧
        (settings D (fileEnviron D resolve values model)).maxSlots =
          (settings D (commandEnviron D resolve values model found)).maxSlots) ↔
      (apiOn values = true →
        2 ≤ atoi (values .sessionMax) ∨ values .sessionMax = [] ∧ found = true) := by
  simp only [settings]
  rw [lookup_fileEnviron .sessionMax rfl, lookup_commandEnviron .sessionMax rfl,
    commandText]
  by_cases hbump : apiOn values = true ∧ atoi (values .sessionMax) < 2
  · have htwo : atoi (spell 2) = 2 := by decide
    have hless : ¬ 2 ≤ atoi (values .sessionMax) := by omega
    have hmore : ¬ 1 < atoi (values .sessionMax) := by omega
    rw [fileText_sessionMax, if_pos hbump]
    by_cases hv : values .sessionMax = []
    · have hzero : atoi [] = 0 := by decide
      cases found <;> simp [hv, htwo, hbump.1, hzero]
    · simp [hv, htwo, hbump.1, hless, hmore, assignedText]
  · have hok : apiOn values = true →
        2 ≤ atoi (values .sessionMax) ∨ values .sessionMax = [] ∧ found = true := by
      intro hon
      exact .inl (by_contra fun h => hbump ⟨hon, by omega⟩)
    rw [fileText_sessionMax, if_neg hbump]
    refine iff_of_true ?_ hok
    by_cases hv : values .sessionMax = []
    · cases found <;> simp [hv]
    · simp [hv, assignedText, Decimal.atoi_spell_atoi]

/-- A tenancy limit left out of the file is what the engine takes by itself. -/
def KeepsDefault (v : Str) (default : Int) : Prop := v = [] ∨ atoi v = default ∨ atoi v < 0

theorem rpm_agree_iff :
    (settings D (fileEnviron D resolve values model)).rpmPerUser =
        (settings D (commandEnviron D resolve values model found)).rpmPerUser ↔
      (apiOn values = false → KeepsDefault (values .apiRpm) 60) := by
  simp only [settings]
  rw [lookup_fileEnviron .apiRpm rfl, fileText_tenancy (.inr rfl),
    lookup_commandEnviron_of_ne .apiRpm rfl (by decide), commandText, KeepsDefault]
  by_cases hv : values .apiRpm = []
  · simp [hv]
  · cases hon : apiOn values with
    | true => simp [hv, assignedText, Decimal.atoi_spell_atoi]
    | false =>
      simp only [hv, List.isEmpty_iff, Bool.false_eq_true, false_and, if_false, Option.elim_none,
        Option.elim_some, assignedText, forall_const, false_or]
      split_ifs <;> omega

theorem sessionMaxPerUser_agree_iff :
    (settings D (fileEnviron D resolve values model)).sessionMaxPerUser =
        (settings D (commandEnviron D resolve values model found)).sessionMaxPerUser ↔
      (apiOn values = false → KeepsDefault (values .sessionMaxPerUser) 2) := by
  simp only [settings]
  rw [lookup_fileEnviron .sessionMaxPerUser rfl, fileText_tenancy (.inl rfl),
    lookup_commandEnviron_of_ne .sessionMaxPerUser rfl (by decide), commandText,
    KeepsDefault]
  by_cases hv : values .sessionMaxPerUser = []
  · simp [hv]
  · cases hon : apiOn values with
    | true => simp [hv, assignedText, Decimal.atoi_spell_atoi]
    | false =>
      have hbounds := Decimal.atoi_bounds (values .sessionMaxPerUser)
      simp only [hv, List.isEmpty_iff, Bool.false_eq_true, false_and, if_false, Option.elim_none,
        Option.elim_some, assignedText, forall_const, false_or, toSize]
      split_ifs <;> omega

theorem apiKeysFile_agree_iff :
    (settings D (fileEnviron D resolve values model)).apiKeysFile =
        (settings D (commandEnviron D resolve values model found)).apiKeysFile ↔
      (apiOn values = true → values .apiKeysFile = [] ∨ found = true) := by
  simp only [settings]
  rw [lookup_fileEnviron_keysFile, lookup_commandEnviron_keysFile, fileKeys]
  cases found <;> simp

theorem apiEnabled_agree :
    (settings D (fileEnviron D resolve values model)).apiEnabled =
      (settings D (commandEnviron D resolve values model found)).apiEnabled := by
  simp only [settings]
  rw [lookup_fileEnviron .apiMode rfl, fileText_apiMode,
    lookup_commandEnviron_of_ne .apiMode rfl (by decide), commandText]
  by_cases hv : values .apiMode = []
  · have hoff : switchOn [] = false := by decide
    simp [apiOn, hv, hoff]
  · cases hs : switchOn (values .apiMode) <;> simp [apiOn, hv, hs, assignedText, envOn]
    all_goals decide

/-- A switch has the same text both ways. -/
theorem lookup_switch (key : Key) (h : key.knob = some name)
    (hk : key = .stream ∨ key = .think ∨ key = .kernels ∨ key = .prefetch) :
    lookup (fileEnviron D resolve values model) name =
      lookup (commandEnviron D resolve values model found) name := by
  have hne : key ≠ .sessionMax := by
    rintro rfl
    simp at hk
  rw [lookup_fileEnviron key h, lookup_commandEnviron_of_ne key h hne, fileText_switch hk]

/-- A number may be spelled otherwise, but reads the same. -/
theorem lookup_number (key : Key) (h : key.knob = some name)
    (hk : key = .mtp ∨ key = .threads ∨ key = .ctx) :
    (lookup (fileEnviron D resolve values model) name).map atoi =
      (lookup (commandEnviron D resolve values model found) name).map atoi := by
  have hne : key ≠ .sessionMax := by
    rintro rfl
    simp at hk
  rw [lookup_fileEnviron key h, lookup_commandEnviron_of_ne key h hne, fileText_number hk,
    commandText]
  by_cases hv : values key = []
  · simp [hv]
  · rcases hk with rfl | rfl | rfl <;> simp [hv, assignedText, Decimal.atoi_spell_atoi]

theorem mtpPMin_agree :
    (settings D (fileEnviron D resolve values model)).mtpPMin =
      (settings D (commandEnviron D resolve values model found)).mtpPMin := by
  simp only [settings]
  rw [← pMinName, lookup_fileEnviron_pMin, lookup_commandEnviron_pMin]
  split_ifs
  · exact D.strtod_dump _ D.finite_half
  · rfl

theorem elim_number (key : Key) {d : Int} (h : key.knob = some name)
    (hk : key = .mtp ∨ key = .threads ∨ key = .ctx) :
    (lookup (fileEnviron D resolve values model) name).elim d atoi =
      (lookup (commandEnviron D resolve values model found) name).elim d atoi := by
  have hmap : ∀ o : Option Str, o.elim d atoi = (o.map atoi).elim d id := by
    intro o
    cases o <;> rfl
  rw [hmap, lookup_number key h hk, ← hmap]

/-- What has to be so for the settings to agree, when the command finds the written file or not. -/
structure Agrees (D : Doubles F) (values : Values) (found : Bool) : Prop where
  dense : values .dense ≠ text "warm" ∧ values .dense ≠ text "anon"
  cacheGib : values .cacheGib = [] ∨
    0 < atoi (values .cacheGib) ∧ strtol (values .cacheGib) = atoi (values .cacheGib)
  maxReqS : values .maxReqS = [] ∨ D.finite (D.strtod (values .maxReqS)).1 = true
  sessionMax : apiOn values = true →
    2 ≤ atoi (values .sessionMax) ∨ values .sessionMax = [] ∧ found = true
  apiKeysFile : apiOn values = true → values .apiKeysFile = [] ∨ found = true
  apiRpm : apiOn values = false → KeepsDefault (values .apiRpm) 60
  sessionMaxPerUser : apiOn values = false → KeepsDefault (values .sessionMaxPerUser) 2

theorem settings_agree_iff (hvalid : validValue D .cacheGib (values .cacheGib) = true) :
    settings D (fileEnviron D resolve values model) =
        settings D (commandEnviron D resolve values model found) ↔
      Agrees D values found := by
  constructor
  · intro h
    exact ⟨dense_agree_iff.mp (congrArg Settings.dense h),
      (capGib_agree_iff hvalid).mp (congrArg Settings.capGib h),
      maxReqS_agree_iff.mp (congrArg Settings.maxReqS h),
      sessions_agree_iff.mp ⟨congrArg Settings.nSeqMax h, congrArg Settings.maxSlots h⟩,
      apiKeysFile_agree_iff.mp (congrArg Settings.apiKeysFile h),
      rpm_agree_iff.mp (congrArg Settings.rpmPerUser h),
      sessionMaxPerUser_agree_iff.mp (congrArg Settings.sessionMaxPerUser h)⟩
  · intro h
    apply Settings.ext
    · exact (capGib_agree_iff hvalid).mpr h.cacheGib
    · simp only [settings]
      rw [lookup_switch .stream rfl (.inl rfl)]
    · exact dense_agree_iff.mpr h.dense
    · simp only [settings]
      rw [lookup_switch .prefetch rfl (by simp)]
    · exact congrArg (max 0) (elim_number .mtp rfl (.inl rfl))
    · exact mtpPMin_agree
    · exact congrArg (max 64) (elim_number .ctx rfl (by simp))
    · exact congrArg (max 1) (elim_number .threads rfl (by simp))
    · exact (sessions_agree_iff.mpr h.sessionMax).1
    · exact (sessions_agree_iff.mpr h.sessionMax).2
    · simp only [settings]
      rw [lookup_switch .think rfl (by simp)]
    · exact maxReqS_agree_iff.mpr h.maxReqS
    · exact lookup_switch .kernels rfl (by simp)
    · exact apiEnabled_agree
    · exact rpm_agree_iff.mpr h.apiRpm
    · exact sessionMaxPerUser_agree_iff.mpr h.sessionMaxPerUser
    · exact apiKeysFile_agree_iff.mpr h.apiKeysFile

end Settings

section Arguments

variable {a : Str} {rest : List Str} {args : Args}

/-- An argument without a dash in front is positional. -/
theorem parseArgs_pos (h : a.head? ≠ some 45) :
    parseArgs (a :: rest) args = parseArgs rest { args with pos := args.pos ++ [a] } := by
  have hne : ∀ flag : Str, flag.head? = some 45 → a ≠ flag := by
    rintro flag hflag rfl
    exact h hflag
  have hhelp : ¬ (a = text "-h" ∨ a = text "--help") := by
    rintro (heq | heq)
    · exact hne _ (by decide) heq
    · exact hne _ (by decide) heq
  rw [parseArgs.eq_def]
  simp only [hne _ (show (text "--config").head? = some 45 by decide), hhelp, h, if_false]

theorem parseArgs_flag (h : a.head? = some 45) (hc : a ≠ text "--config") :
    parseArgs (a :: rest) args = none := by
  rw [parseArgs.eq_def]
  simp only [hc, h, if_true, if_false, ite_self]

theorem parseArgs_config {path : Str} :
    parseArgs (text "--config" :: path :: rest) args =
      parseArgs rest { args with config := some path } := by
  rw [parseArgs.eq_def]
  simp only [if_true]

theorem printedPort_head (hvalid : validValue D .port (values .port) = true) :
    (printedPort values).head? ≠ some 45 := by
  intro hdash
  exact absurd ((word_printedPort hvalid).2 45 (List.mem_of_head? hdash)) (by decide)

/-- What the command's arguments come to. -/
theorem parseArgs_printed (artifact : Artifact) {host port : Str} (hport : port.head? ≠ some 45) :
    parseArgs [artifact.path, host, port] {} =
      if host.head? ≠ some 45 then some ⟨none, [artifact.path, host, port]⟩
      else if host = text "--config" then some ⟨some port, [artifact.path]⟩
      else none := by
  rw [parseArgs_pos artifact.path_head]
  split_ifs with hhost hconfig
  · rw [parseArgs_pos hhost, parseArgs_pos hport]
    rfl
  · rw [hconfig, parseArgs_config]
    rfl
  · exact parseArgs_flag (not_not.mp hhost) hconfig

/-- Positional arguments are arguments. -/
theorem pos_subset {argv : List Str} {before after : Args} (h : parseArgs argv before = some after) :
    after.pos ⊆ before.pos ++ argv := by
  fun_induction parseArgs argv before with
  | case1 before =>
    rw [← Option.some.inj h, List.append_nil]
    exact List.Subset.refl _
  | case2 => cases h
  | case3 before path rest ih =>
    intro a ha
    rcases List.mem_append.mp (ih h ha) with ha | ha <;> simp [ha]
  | case4 => cases h
  | case5 => cases h
  | case6 a rest before _ _ _ ih =>
    have hin := ih h
    rwa [List.append_assoc, List.singleton_append] at hin

end Arguments

section Serve

variable {artifact : Artifact} {path : Str} {finds : Option Str → Bool} {argv : List Str}
  {running : Running F} {sets : List (Str × Str)}

theorem host_written : stringAt (written D values model) (text "host") = values .host := by
  have hentry : written D values model (text "host") =
      (entry D values .host).map (Json.reread D) := written_name .host (by decide)
  rw [stringAt, hentry]
  by_cases hv : values .host = []
  · simp [entry, hv]
  · simp [entry, hv, Json.reread]

theorem port_written :
    portOf (written D values model) =
      if values .port = [] then 0 else atoi (values .port) := by
  have hentry : written D values model (text "port") =
      (entry D values .port).map (Json.reread D) := written_name .port (by decide)
  rw [portOf, hentry]
  by_cases hv : values .port = []
  · simp [entry, hv]
  · simp [entry, hv, Json.reread, atoi]

/-- The server on the written file listens where the line says. -/
theorem listens (model : Str) (hvalid : validValue D .port (values .port) = true) :
    (if (values .host).isEmpty then text "127.0.0.1" else cString (values .host)) =
        cString (printedHost values) ∧
      (if 0 < portOf (written D values model) then portOf (written D values model) else 8080) =
        atoi (printedPort values) := by
  constructor
  · unfold printedHost
    split_ifs
    · decide
    · rfl
  · rw [port_written, printedPort]
    by_cases hv : values .port = []
    · simp [hv]
      decide
    · have hpos : 0 < atoi (values .port) := by
        simp [validValue, hv] at hvalid
        omega
      simp [hv, hpos]

theorem model_written : stringAt (written D values model) (text "model") = model := by
  rw [stringAt, written_model]

theorem valid_dense (hvalid : validValue D .dense (values .dense) = true) :
    Utf8.Valid (values .dense) := by
  by_cases hv : values .dense = []
  · rw [hv]
    exact Utf8.valid_nil
  · have hin : values .dense ∈ [text "mmap", text "warm", text "anon"] := by
      simpa [validValue, isOneOf, hv] using hvalid
    have hall : ∀ v ∈ [text "mmap", text "warm", text "anon"], Utf8.Valid v := by decide
    exact hall _ hin

theorem valid_apiKeysFile (hvalid : validValue D .apiKeysFile (values .apiKeysFile) = true) :
    Utf8.Valid (values .apiKeysFile) := by
  by_cases hv : values .apiKeysFile = []
  · rw [hv]
    exact Utf8.valid_nil
  · have hempty : (values .apiKeysFile).isEmpty = false := by simpa using hv
    simp only [validValue, hempty, Bool.false_or, Bool.and_eq_true, allDigits,
      List.all_eq_true] at hvalid
    apply Utf8.valid_of_ascii
    intro b hb
    have hdigit := hvalid.1.2 b hb
    simp only [isDigit, Bool.and_eq_true, decide_eq_true_eq, UInt8.le_iff_toNat_le] at hdigit
    simp only [UInt8.lt_iff_toNat_lt]
    exact lt_of_le_of_lt hdigit.2 (by decide)

/-- Of the values only the host can keep the file from being written. -/
theorem dumps_of_valid (hdense : Utf8.Valid (values .dense))
    (hkeys : Utf8.Valid (values .apiKeysFile)) : dumps (written D values model) = true ↔
      Utf8.Valid model ∧ Utf8.Valid (values .host) := by
  rw [dumps_written]
  exact ⟨fun h => ⟨h.1, h.2.2.1⟩, fun h => ⟨h.1, hdense, h.2, fun _ => hkeys⟩⟩

theorem dumps_of_accepted (hvalid : Accepted D values) : dumps (written D values model) = true ↔
    Utf8.Valid model ∧ Utf8.Valid (values .host) :=
  dumps_of_valid (valid_dense (hvalid .dense)) (valid_apiKeysFile (hvalid .apiKeysFile))

/-- The server on the written file, if there is one. -/
theorem bootFile_eq (artifact : Artifact) (path : Str)
    (hvalid : validValue D .port (values .port) = true) :
    bootFile D resolve artifact values path =
      if dumps (written D values artifact.relative) then
        some ⟨none, settings D (fileEnviron D resolve values artifact.relative),
          cString (printedHost values), atoi (printedPort values)⟩
      else none := by
  have hargs : parseArgs [text "--config", path] {} = some ⟨some path, []⟩ := parseArgs_config
  simp only [bootFile, serve, hargs, start, dumped]
  split
  · obtain ⟨hhost, hport⟩ := listens artifact.relative hvalid
    simp only [discovered, applyConfigFile, model_written, host_written, hport]
    simp [artifact.relative_ne, fileEnviron, applyConfigFile, ← hhost]
  · rfl

/-- The command of the printed line: a host that is the flag takes the port for a path. -/
theorem runCommand_eq (hvalid : validValue D .port (values .port) = true)
    (hdumps : dumps (written D values artifact.relative) = true) :
    runCommand D resolve artifact values finds (envs values, [text "cne_server", artifact.path,
        cString (printedHost values), printedPort values]) =
      if (cString (printedHost values)).head? ≠ some 45 then
        some ⟨some artifact.path,
          settings D (commandEnviron D resolve values artifact.relative (finds none)),
          cString (printedHost values), atoi (printedPort values)⟩
      else if cString (printedHost values) = text "--config" then
        some ⟨some artifact.path, settings D (commandEnviron D resolve values artifact.relative
            (finds (some (printedPort values)))),
          if finds (some (printedPort values)) then cString (printedHost values)
          else text "127.0.0.1",
          if finds (some (printedPort values)) then atoi (printedPort values) else 8080⟩
      else none := by
  have hpath : artifact.path ≠ [] := by
    intro hnil
    have hsuffix := artifact.path_gguf
    rw [hnil] at hsuffix
    exact absurd (List.suffix_nil.mp hsuffix) (by decide)
  obtain ⟨hhost, hport⟩ := listens artifact.relative hvalid
  simp only [runCommand, if_true, serve, parseArgs_printed artifact (printedPort_head hvalid),
    dumped, hdumps]
  by_cases hdash : (cString (printedHost values)).head? ≠ some 45
  · simp only [if_pos hdash]
    cases hf : finds none <;> simp [start, discovered, hpath, commandEnviron, applyConfigFile]
  · simp only [if_neg hdash]
    by_cases hconfig : cString (printedHost values) = text "--config"
    · simp only [if_pos hconfig]
      cases hf : finds (some (printedPort values)) <;>
        simp [start, discovered, hpath, commandEnviron, applyConfigFile, host_written, hport, ← hhost]
    · simp only [if_neg hconfig]

/-- Whether the command finds the written file. -/
def findsWritten (values : Values) (finds : Option Str → Bool) : Bool :=
  finds (if cString (printedHost values) = text "--config" then some (printedPort values) else none)

/-- The written file and the printed line start a server, the latter by every shell, and it is the
same but for the model, which the line names and the file has from below the models directory. -/
def BootsAlike (D : Doubles F) (resolve : Str → Str) (artifact : Artifact) (path : Str)
    (finds : Option Str → Bool) (values : Values) : Prop :=
  ∃ running : Running F,
    bootFile D resolve artifact values path = some { running with modelArg := none } ∧
      ∀ sh, bootCommand D resolve artifact values sh finds =
        some { running with modelArg := some artifact.path }

theorem bootCommand_of_simple {sh : Shell.Reader}
    (hdumps : dumps (written D values artifact.relative) = true)
    (hsimple : Shell.Simple (commandLine values artifact.path)) :
    bootCommand D resolve artifact values sh finds = runCommand D resolve artifact values finds
      (Shell.command (Shell.words (commandLine values artifact.path))) := by
  simp only [bootCommand, printed, if_pos hdumps, sh.run_simple _ hsimple]

/-- A strict shell that runs anything has read the words of a simple line. -/
theorem of_strict (h : bootCommand D resolve artifact values Shell.strict finds = some running) :
    dumps (written D values artifact.relative) = true ∧
      Shell.Simple (commandLine values artifact.path) ∧
      runCommand D resolve artifact values finds
        (Shell.command (Shell.words (commandLine values artifact.path))) = some running := by
  have hdumps : dumps (written D values artifact.relative) = true := by
    by_contra hthrows
    simp only [bootCommand, printed, if_neg hthrows] at h
    cases h
  simp only [bootCommand, printed, if_pos hdumps] at h
  split at h
  · cases h
  · rename_i command hrun
    obtain ⟨hsimple, rfl⟩ := Shell.simple_of_strict hrun
    exact ⟨hdumps, hsimple, h⟩

theorem of_start {args : Args} {applied : Applied} (h : start D args applied = some running) :
    running.modelArg = args.pos[0]? ∧ ∀ host, args.pos[1]? = some host → running.host = host := by
  unfold start at h
  split at h
  · cases h
  · rw [← Option.some.inj h]
    refine ⟨rfl, fun host hhost => ?_⟩
    rw [hhost]
    rfl

/-- A command that starts the server has its model among the arguments. -/
theorem of_runCommand {command : Shell.Command} {m : Str} (hmodel : running.modelArg = some m)
    (h : runCommand D resolve artifact values finds command = some running) :
    ∃ argv, command.2 = text "cne_server" :: argv ∧ m ∈ argv := by
  obtain ⟨sets, _ | ⟨name, argv⟩⟩ := command
  · cases h
  · simp only [runCommand] at h
    split_ifs at h with hname
    refine ⟨argv, by rw [hname], ?_⟩
    simp only [serve] at h
    split at h
    · cases h
    · rename_i args hargs
      rw [(of_start h).1] at hmodel
      exact pos_subset hargs (List.mem_of_getElem? hmodel)

/-- Without a host the port is taken for it. -/
theorem runCommand_noHost (hport : (printedPort values).head? ≠ some 45)
    (h : runCommand D resolve artifact values finds
      (sets, [text "cne_server", artifact.path, printedPort values]) = some running) :
    running.host = printedPort values := by
  have hargs : parseArgs [artifact.path, printedPort values] {} =
      some ⟨none, [artifact.path, printedPort values]⟩ := by
    rw [parseArgs_pos artifact.path_head, parseArgs_pos hport]
    rfl
  simp only [runCommand, if_true, serve, hargs] at h
  exact (of_start h).2 _ rfl

/-- The two only start alike if the line is read as it was meant. -/
theorem prints_of_bootsAlike (hvalid : Accepted D values)
    (h : BootsAlike D resolve artifact path finds values) : Prints artifact values := by
  obtain ⟨running, hfile, hline⟩ := h
  obtain ⟨hdumps, hsimple, hrun⟩ := of_strict (hline Shell.strict)
  obtain ⟨argv, hcommand, hmem⟩ := of_runCommand rfl hrun
  obtain ⟨hpath, hplain, hhost, hwords⟩ := command_of_simple hvalid hsimple hmem hcommand
  obtain ⟨hmodel, hutf⟩ := (dumps_of_accepted hvalid).mp hdumps
  refine ⟨hmodel, hutf, hpath, ?_, hplain⟩
  rcases words_host (hvalid .host) with hnil | hone
  · rw [bootFile_eq artifact path (hvalid .port), if_pos hdumps, Option.some.injEq] at hfile
    have hgiven : running.host = cString (printedHost values) :=
      (congrArg Running.host hfile).symm
    rw [hwords, hnil] at hrun
    have hport := runCommand_noHost (printedPort_head (hvalid .port)) hrun
    have hempty : printedPort values = [] := hport.symm.trans (hgiven.trans hnil)
    exact absurd hempty (word_printedPort (hvalid .port)).1.ne_nil
  · exact hhost _ (by rw [hone]; exact List.mem_cons_self)

/-- A line that is read as it was meant comes down to its command. -/
theorem bootsAlike_iff_runCommand (hvalid : Accepted D values) (hprints : Prints artifact values) :
    BootsAlike D resolve artifact path finds values ↔
      runCommand D resolve artifact values finds (envs values, [text "cne_server", artifact.path,
          cString (printedHost values), printedPort values]) =
        some ⟨some artifact.path, settings D (fileEnviron D resolve values artifact.relative),
          cString (printedHost values), atoi (printedPort values)⟩ := by
  have hdumps : dumps (written D values artifact.relative) = true :=
    (dumps_of_accepted hvalid).mpr ⟨hprints.model, hprints.host⟩
  obtain ⟨hsimple, hcommand⟩ := simple_commandLine hvalid hprints
  simp only [BootsAlike, bootFile_eq artifact path (hvalid .port), if_pos hdumps,
    bootCommand_of_simple hdumps hsimple, hcommand]
  constructor
  · rintro ⟨running, hfile, hline⟩
    rw [hline Shell.strict]
    have hsame := Option.some.inj hfile
    rw [Running.mk.injEq] at hsame
    obtain ⟨-, hsettings, hhost, hport⟩ := hsame
    rw [hsettings, hhost, hport]
  · intro hline
    exact ⟨⟨none, _, _, _⟩, rfl, fun _ => hline⟩

/-- For all values that the setup program takes, the written file and the printed line start servers
with the same settings exactly if the line is read as it was meant, the settings agree item by item
and the host is not taken for a flag. -/
theorem bootFile_eq_bootCommand_iff (D : Doubles F) (resolve : Str → Str) (artifact : Artifact)
    (path : Str) (finds : Option Str → Bool) (values : Values) (hvalid : Accepted D values) :
    BootsAlike D resolve artifact path finds values ↔
      Prints artifact values ∧ Agrees D values (findsWritten values finds) ∧
        ((cString (printedHost values)).head? = some 45 →
          cString (printedHost values) = text "--config" ∧ findsWritten values finds = true) := by
  by_cases hprints : Prints artifact values
  case neg =>
    exact iff_of_false (mt (prints_of_bootsAlike hvalid) hprints) fun h => hprints h.1
  have hdumps : dumps (written D values artifact.relative) = true :=
    (dumps_of_accepted hvalid).mpr ⟨hprints.model, hprints.host⟩
  rw [bootsAlike_iff_runCommand hvalid hprints, runCommand_eq (hvalid .port) hdumps,
    and_iff_right hprints]
  by_cases hdash : (cString (printedHost values)).head? = some 45
  · rw [if_neg (not_not.mpr hdash)]
    by_cases hconfig : cString (printedHost values) = text "--config"
    · have hne : text "127.0.0.1" ≠ text "--config" := by decide
      rw [hconfig] at hdash
      rw [if_pos hconfig, Option.some.injEq, Running.mk.injEq, eq_comm (a := settings _ _),
        settings_agree_iff (hvalid .cacheGib), findsWritten, if_pos hconfig]
      cases hf : finds (some (printedPort values)) <;> simp [hconfig, hne, hdash]
    · simp [hconfig, hdash]
  · have hconfig : cString (printedHost values) ≠ text "--config" := by
      intro heq
      rw [heq] at hdash
      exact hdash (by decide)
    rw [if_pos hdash, Option.some.injEq, Running.mk.injEq, eq_comm (a := settings _ _),
      settings_agree_iff (hvalid .cacheGib), findsWritten, if_neg hconfig]
    simp [hdash]

/-- Reads the texts of the two doubles below. -/
def readHalf (s : Str) : Bool × Nat :=
  if s = text "0.5" then (true, 3)
  else if s = text "0.0" then (false, 3)
  else if s = text "0" then (false, 1)
  else (false, 0)

def dumpHalf (x : Bool) : Str := if x then text "0.5" else text "0.0"

theorem dumpHalf_ne (x : Bool) : dumpHalf x ≠ [] := by
  cases x <;> decide

theorem readHalf_dumpHalf (x : Bool) : (readHalf (dumpHalf x)).1 = x := by
  cases x <;> decide

theorem readHalf_text (s : Str) : (readHalf s).2 = 0 ∨
    ∃ front number, s.take (readHalf s).2 = front ++ number ∧ number ≠ [] ∧
      (∀ b ∈ front, Decimal.isSpace b = true) ∧ ∀ b ∈ number, isNumeral b = true := by
  have hread : ∀ s ∈ [text "0.5", text "0.0", text "0"],
      s.take (readHalf s).2 = s ∧ s ≠ [] ∧ s.all isNumeral = true := by decide
  by_cases hs : s ∈ [text "0.5", text "0.0", text "0"]
  · obtain ⟨htake, hne, hnumeral⟩ := hread s hs
    exact Or.inr ⟨[], s, htake, hne, fun b hb => (by cases hb), List.all_eq_true.mp hnumeral⟩
  · left
    simp only [List.mem_cons, List.not_mem_nil, or_false, not_or] at hs
    rw [readHalf, if_neg hs.1, if_neg hs.2.1, if_neg hs.2.2]

/-- Zero and a half. -/
def halves : Doubles Bool where
  zero := false
  strtod := readHalf
  nonneg _ := true
  finite _ := true
  dump := dumpHalf
  finite_zero := rfl
  finite_half := rfl
  dump_ne := dumpHalf_ne
  strtod_dump x _ := readHalf_dumpHalf x
  strtod_text s _ := readHalf_text s

/-- Everything is left to the engine but the policy for the dense weights. -/
def denseOnly (policy : Str) : Values := fun key => if key = .dense then policy else []

theorem validValue_nil : validValue D key [] = true := by
  cases key <;> rfl

theorem denseOnly_accepted {policy : Str} (h : validValue halves .dense policy = true) :
    Accepted halves (denseOnly policy) := by
  intro key
  cases key with
  | dense => exact h
  | _ => exact validValue_nil

theorem modelPath_gguf : text ".gguf" <:+ text "models/m.gguf" := by decide

theorem modelPath_head : (text "models/m.gguf").head? ≠ some 45 := by decide

theorem modelName_ne : text "m.gguf" ≠ [] := by decide

def someArtifact : Artifact where
  path := text "models/m.gguf"
  relative := text "m.gguf"
  path_gguf := modelPath_gguf
  path_head := modelPath_head
  relative_ne := modelName_ne

theorem bootFile_eq_bootCommand_mmap :
    Accepted halves (denseOnly (text "mmap")) ∧
      BootsAlike halves id someArtifact (text "models/server.json") (fun _ => true)
        (denseOnly (text "mmap")) := by
  have hvalid : Accepted halves (denseOnly (text "mmap")) := denseOnly_accepted (by decide)
  refine ⟨hvalid, (bootFile_eq_bootCommand_iff halves id someArtifact _ _ _ hvalid).mpr ?_⟩
  refine ⟨⟨by decide, by decide, by decide, by decide, fun b hb => by cases hb⟩,
    ⟨by decide, .inl rfl, .inl rfl, ?_, ?_, ?_, ?_⟩, by decide⟩
  · intro hon
    exact absurd hon (by decide)
  · intro hon
    exact absurd hon (by decide)
  · exact fun _ => .inl rfl
  · exact fun _ => .inl rfl

/-- The policy `warm`: the file makes it `mmap`. -/
theorem not_bootFile_eq_bootCommand :
    ¬ ∀ (D : Doubles Bool) (resolve : Str → Str) (artifact : Artifact) (path : Str)
      (finds : Option Str → Bool) (values : Values), Accepted D values →
      BootsAlike D resolve artifact path finds values := by
  intro h
  have hvalid : Accepted halves (denseOnly (text "warm")) := denseOnly_accepted (by decide)
  have hboots := h halves id someArtifact (text "models/server.json") (fun _ => true) _ hvalid
  have hprints := prints_of_bootsAlike hvalid hboots
  have hdumps := (dumps_of_accepted hvalid).mpr ⟨hprints.model, hprints.host⟩
  have hdash : (cString (printedHost (denseOnly (text "warm")))).head? ≠ some 45 := by decide
  rw [bootsAlike_iff_runCommand hvalid hprints, runCommand_eq (hvalid .port) hdumps, if_pos hdash,
    Option.some.injEq, Running.mk.injEq] at hboots
  exact (dense_agree_iff.mp (congrArg Settings.dense hboots.2.1.symm)).1 rfl

end Serve

end NotreEngine.Config
