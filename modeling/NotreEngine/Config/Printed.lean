import NotreEngine.Config.Boot

/-!
# The printed line

What the shell makes of the line that the setup program prints. Only the seconds, the host and the
path of the artifact can hold bytes that are not taken as they are.
-/
namespace NotreEngine.Config

open Gguf (text)
open Decimal (isDigit isSpace)
open Shell (Word isPlain isBlank isName words command assignment)

variable {F : Type} {D : Doubles F} {values : Values} {key : Key} {artifact : Artifact}
  {named : Str × Str} {v : Str} {sets : List (Str × Str)} {b : UInt8}

/-- The values that the setup program takes. -/
def Accepted (D : Doubles F) (values : Values) : Prop :=
  ∀ key, validValue D key (values key) = true

/-- The strings of the file can be dumped, and those that are printed are words of the line. -/
structure Prints (artifact : Artifact) (values : Values) : Prop where
  model : Utf8.Valid artifact.relative
  host : Utf8.Valid (values .host)
  path : Word artifact.path
  hostWord : Word (cString (printedHost values))
  maxReqS : ∀ b ∈ values .maxReqS, isPlain b = true

section Bytes

theorem plain_of_isNumeral (h : isNumeral b = true) :
    isPlain b = true ∧ b ≠ 126 ∧ b ≠ 61 ∧ b ≠ 95 ∧ b ≠ 0 := by
  have hall : ∀ n < 256, isNumeral (UInt8.ofNat n) = true →
      isPlain (UInt8.ofNat n) = true ∧ UInt8.ofNat n ≠ 126 ∧ UInt8.ofNat n ≠ 61 ∧
        UInt8.ofNat n ≠ 95 ∧ UInt8.ofNat n ≠ 0 := by decide +kernel
  have hb := hall b.toNat b.toNat_lt
  rw [UInt8.ofNat_toNat] at hb
  exact hb h

theorem plain_of_isNameByte (h : Shell.isNameByte b = true) :
    isPlain b = true ∧ b ≠ 126 ∧ b ≠ 35 ∧ b ≠ 0 := by
  have hall : ∀ n < 256, Shell.isNameByte (UInt8.ofNat n) = true →
      isPlain (UInt8.ofNat n) = true ∧ UInt8.ofNat n ≠ 126 ∧ UInt8.ofNat n ≠ 35 ∧
        UInt8.ofNat n ≠ 0 := by decide +kernel
  have hb := hall b.toNat b.toNat_lt
  rw [UInt8.ofNat_toNat] at hb
  exact hb h

theorem not_isBlank_of_isPlain (h : isPlain b = true) : isBlank b = false := by
  rw [isPlain, Bool.and_eq_true] at h
  simpa using h.1

theorem plain_not_isBlank (h : v.all isPlain = true) : ∀ b ∈ v, isBlank b = false :=
  fun b hb => not_isBlank_of_isPlain (List.all_eq_true.mp h b hb)

theorem nameBytes_of_isName {name : Str} (h : isName name = true) :
    ∀ b ∈ name, Shell.isNameByte b = true := by
  cases name with
  | nil => exact fun b hb => by cases hb
  | cons c rest =>
    rw [isName, Bool.and_eq_true, List.all_eq_true] at h
    rw [List.forall_mem_cons, Shell.isNameByte, h.1]
    exact ⟨rfl, h.2⟩

/-- A value of digits and letters makes a word with its name. -/
theorem word_of_numerals {name : Str} (hname : isName name = true)
    (hv : ∀ b ∈ v, isPlain b = true ∧ b ≠ 126) : Word (name ++ 61 :: v) := by
  have hbytes := nameBytes_of_isName hname
  have heq : isPlain 61 = true ∧ (61 : UInt8) ≠ 126 := by decide
  have hall : ∀ b ∈ name ++ 61 :: v, isPlain b = true ∧ b ≠ 126 := by
    intro b hb
    rcases List.mem_append.mp hb with hb | hb
    · exact ⟨(plain_of_isNameByte (hbytes b hb)).1, (plain_of_isNameByte (hbytes b hb)).2.1⟩
    · rcases List.mem_cons.mp hb with rfl | hb
      · exact heq
      · exact hv b hb
  refine ⟨by simp, fun b hb => (hall b hb).1, ?_, ?_⟩
  · cases name with
    | nil => cases hname
    | cons c rest =>
      rw [List.cons_append, List.head?_cons, ne_eq, Option.some.injEq]
      exact (plain_of_isNameByte (hbytes c (by simp))).2.2.1
  · exact Shell.opensTilde_of_not_mem fun hb => (hall _ hb).2 rfl

theorem cString_of_not_mem (h : (0 : UInt8) ∉ v) : cString v = v := by
  rw [cString, List.takeWhile_eq_self_iff]
  intro b hb
  rw [decide_eq_true_eq]
  rintro rfl
  exact h hb

theorem cString_append {s : Str} (h : (0 : UInt8) ∉ s) : cString (s ++ v) = s ++ cString v := by
  rw [cString, List.takeWhile_append_of_pos]
  · rfl
  · intro b hb
    rw [decide_eq_true_eq]
    rintro rfl
    exact h hb

end Bytes

section Assignments

theorem isName_cneName (h : key.knob = some v) : isName (cneName v) = true := by
  cases key <;> cases h <;> decide

theorem isName_of_mem (h : named ∈ envs values) : isName named.1 = true := by
  rcases mem_envs.mp h with ⟨key, name, hname, -, rfl⟩ | ⟨-, rfl⟩
  · exact isName_cneName hname
  · decide

def secondsName : Str := cneName (text "MAX_REQ_S")

/-- What is assigned is digits and letters, but for the seconds, which are as they were typed. -/
theorem numerals_of_mem (hvalid : Accepted D values) (h : named ∈ envs values) :
    named = (secondsName, values .maxReqS) ∨ ∀ b ∈ named.2, isNumeral b = true := by
  have hdigits : ∀ {v : Str}, allDigits v = true → ∀ b ∈ v, isNumeral b = true := by
    intro v hv b hb
    rw [allDigits, Bool.and_eq_true, List.all_eq_true] at hv
    rw [isNumeral, hv.2 b hb]
    simp
  rcases mem_envs.mp h with ⟨key, name, hname, hne, rfl⟩ | ⟨-, rfl⟩
  · have hkey := hvalid key
    have hswitch : ∀ b ∈ envOn (values key), isNumeral b = true := by
      unfold envOn
      split <;> exact List.all_eq_true.mp (by decide)
    cases key with
    | maxReqS =>
      cases hname
      exact Or.inl rfl
    | stream | prefetch | kernels | apiMode | think => exact Or.inr hswitch
    | dense =>
      right
      have hin : values .dense ∈ [text "mmap", text "warm", text "anon"] := by
        simpa [validValue, isOneOf, hne] using hkey
      have hall : ∀ v ∈ [text "mmap", text "warm", text "anon"], v.all isNumeral = true := by
        decide
      exact List.all_eq_true.mp (hall _ hin)
    | host | port | apiKeysFile => cases hname
    | _ =>
      right
      apply hdigits
      simp only [validValue] at hkey
      simp_all [assignedText]
  · right
    exact List.all_eq_true.mp (by decide)

/-- What the string functions see of accepted seconds: white space and a number, or nothing. -/
theorem seconds_text (hvalid : validValue D .maxReqS v = true) : cString v = [] ∨
    ∃ front number, cString v = front ++ number ∧ number ≠ [] ∧
      (∀ b ∈ front, isSpace b = true) ∧ ∀ b ∈ number, isNumeral b = true := by
  by_cases hv : v = []
  · subst hv
    exact Or.inl rfl
  · have hempty : v.isEmpty = false := by simpa using hv
    simp only [validValue, hempty, Bool.false_or, Bool.and_eq_true, Bool.or_eq_true,
      decide_eq_true_eq] at hvalid
    obtain ⟨hend, hnonneg⟩ := hvalid
    rcases D.strtod_text v hnonneg with hzero | ⟨front, number, hread, hne, hfront, hnumber⟩
    · left
      rw [hzero] at hend
      cases v with
      | nil => exact absurd rfl hv
      | cons c rest =>
        have hc : c = 0 := by simpa using hend
        rw [hc]
        rfl
    · right
      have hseen : (0 : UInt8) ∉ v.take (D.strtod v).2 := by
        rw [hread]
        intro hb
        rcases List.mem_append.mp hb with hb | hb
        · exact absurd (hfront 0 hb) (by decide)
        · exact (plain_of_isNumeral (hnumber 0 hb)).2.2.2.2 rfl
      refine ⟨front, number, ?_, hne, hfront, hnumber⟩
      rw [← hread]
      rcases hend with hend | hend
      · rw [hend, List.take_length] at hseen ⊢
        exact cString_of_not_mem hseen
      · have hsplit : v = v.take (D.strtod v).2 ++ 0 :: v.drop ((D.strtod v).2 + 1) := by
          obtain ⟨hlt, hget⟩ := List.getElem?_eq_some_iff.mp hend
          rw [← hget, ← List.drop_eq_getElem_cons hlt, List.take_append_drop]
        have hcut : cString (0 :: v.drop ((D.strtod v).2 + 1)) = [] := rfl
        conv_lhs => rw [hsplit, cString_append hseen, hcut, List.append_nil]

end Assignments

section Line

/-- Assignments as `kv` adds them to `envs`. -/
def setsText (sets : List (Str × Str)) : Str :=
  sets.flatMap fun named => named.1 ++ text "=" ++ named.2 ++ text " "

theorem words_setsText (sets : List (Str × Str)) (rest : Str) : words (setsText sets ++ rest) =
    sets.flatMap (fun named => words (named.1 ++ 61 :: named.2)) ++ words rest := by
  induction sets with
  | nil => rfl
  | cons named sets ih =>
    have hsplit : setsText (named :: sets) ++ rest =
        (named.1 ++ 61 :: named.2) ++ 32 :: (setsText sets ++ rest) := by
      have heq : text "=" = [61] := by decide
      have hblank : text " " = [32] := by decide
      simp [setsText, heq, hblank]
    rw [hsplit, Shell.words_append (by decide), ih, List.flatMap_cons, List.append_assoc]

theorem words_of_word {w : Str} (h : Word w) : words w = [w] :=
  Shell.words_single (fun b hb => not_isBlank_of_isPlain (h.plain b hb)) h.ne_nil

/-- Assignments of plain values are a word each. -/
theorem words_assignments {rest : Str}
    (h : ∀ named ∈ sets, Word (named.1 ++ 61 :: named.2)) : words (setsText sets ++ rest) =
      sets.map (fun named => named.1 ++ 61 :: named.2) ++ words rest := by
  rw [words_setsText]
  congr 1
  induction sets with
  | nil => rfl
  | cons named sets ih =>
    obtain ⟨hnamed, hsets⟩ := List.forall_mem_cons.mp h
    rw [List.flatMap_cons, words_of_word hnamed, ih hsets]
    rfl

theorem word_printedPort (hvalid : validValue D .port (values .port) = true) :
    Word (printedPort values) ∧ ∀ b ∈ printedPort values, isDigit b = true := by
  have hdigits : (∀ b ∈ printedPort values, isDigit b = true) ∧ printedPort values ≠ [] := by
    unfold printedPort
    split
    · exact ⟨List.all_eq_true.mp (by decide), by decide⟩
    · rename_i hne
      refine ⟨?_, by simpa using hne⟩
      simp only [validValue, hne, Bool.false_or, Bool.and_eq_true, allDigits,
        List.all_eq_true] at hvalid
      exact hvalid.1.1.2
  have hplain : ∀ b ∈ printedPort values, isPlain b = true ∧ b ≠ 126 := by
    intro b hb
    have hnumeral : isNumeral b = true := by
      rw [isNumeral, hdigits.1 b hb]
      simp
    exact ⟨(plain_of_isNumeral hnumeral).1, (plain_of_isNumeral hnumeral).2.1⟩
  refine ⟨⟨hdigits.2, fun b hb => (hplain b hb).1, ?_, ?_⟩, hdigits.1⟩
  · intro hhead
    have hb := hdigits.1 35 (List.mem_of_head? hhead)
    exact absurd hb (by decide)
  · exact Shell.opensTilde_of_not_mem fun hb => (hplain _ hb).2 rfl

theorem cString_envsText (h : ∀ named ∈ envs values, Word (named.1 ++ 61 :: named.2)) :
    cString (envsText values) = setsText (envs values) := by
  apply cString_of_not_mem
  rw [envsText, List.mem_flatMap]
  rintro ⟨named, hnamed, hb⟩
  have heq : text "=" = [61] := by decide
  have hblank : text " " = [32] := by decide
  have hword : (0 : UInt8) ∉ named.1 ++ 61 :: named.2 := by
    intro hzero
    exact absurd ((h named hnamed).plain 0 hzero) (by decide)
  rw [heq, hblank] at hb
  apply hword
  simpa using hb

/-- The line of a printed command, from its words. -/
theorem simple_of_sets {line : Str} {argv : List Str} (hsets : ∀ named ∈ sets, isName named.1 = true)
    (hwords : ∀ named ∈ sets, Word (named.1 ++ 61 :: named.2)) (hargv : ∀ a ∈ argv, Word a)
    (hline : words line =
      sets.map (fun named => named.1 ++ 61 :: named.2) ++ text "cne_server" :: argv) :
    Shell.Simple line ∧ command (words line) = (sets, text "cne_server" :: argv) := by
  have hassigned : ∀ named ∈ sets, assignment (named.1 ++ 61 :: named.2) = some named :=
    fun named hnamed => Shell.assignment_append (hsets named hnamed)
  have hcommand : command (words line) = (sets, text "cne_server" :: argv) := by
    rw [hline, Shell.command_append hassigned, Shell.command_cons (by decide), List.append_nil]
  refine ⟨Shell.simple_of_words ?_ ?_, hcommand⟩
  · rw [hline]
    intro w hw
    rcases List.mem_append.mp hw with hw | hw
    · obtain ⟨named, hnamed, rfl⟩ := List.mem_map.mp hw
      exact hwords named hnamed
    · rcases List.mem_cons.mp hw with rfl | hw
      · decide
      · exact hargv w hw
  · rw [hcommand, List.head?_cons]
    intro name hname
    rw [← Option.some.inj hname]
    decide

/-- The part of the line behind the program. -/
def argsText (values : Values) (path : Str) : Str :=
  cString path ++ 32 :: (cString (printedHost values) ++ 32 :: cString (printedPort values))

theorem commandLine_eq (values : Values) (path : Str) : commandLine values path =
    cString (envsText values) ++ (text "cne_server" ++ 32 :: argsText values path) := by
  have hname : text "cne_server " = text "cne_server" ++ [32] := by decide
  have hblank : text " " = [32] := by decide
  simp [commandLine, argsText, hname, hblank]

theorem cString_of_word {w : Str} (h : Word w) : cString w = w := by
  apply cString_of_not_mem
  intro hzero
  exact absurd (h.plain 0 hzero) (by decide)

theorem words_argsText (hpath : Word artifact.path)
    (hvalid : validValue D .port (values .port) = true) : words (argsText values artifact.path) =
      artifact.path :: (words (cString (printedHost values)) ++ [printedPort values]) := by
  have hport := (word_printedPort hvalid).1
  rw [argsText, Shell.words_append (by decide), Shell.words_append (by decide),
    cString_of_word hpath, cString_of_word hport, words_of_word hpath, words_of_word hport]
  rfl

/-- A host has no blanks. -/
theorem words_host (hvalid : validValue D .host (values .host) = true) :
    cString (printedHost values) = [] ∨
      words (cString (printedHost values)) = [cString (printedHost values)] := by
  have hall : ∀ b ∈ printedHost values, isBlank b = false := by
    unfold printedHost
    split
    · exact plain_not_isBlank (by decide)
    · rename_i hne
      simp only [validValue, hne, Bool.false_or, List.all_eq_true] at hvalid
      intro b hb
      have hb := hvalid b hb
      simp only [Bool.and_eq_true, decide_eq_true_eq] at hb
      simp [isBlank, hb]
  by_cases hempty : cString (printedHost values) = []
  · exact Or.inl hempty
  · right
    apply Shell.words_single _ hempty
    intro b hb
    exact hall b ((List.takeWhile_sublist _).subset hb)

/-- No accepted value but that for the seconds is other than digits and letters. -/
theorem word_of_mem (hvalid : Accepted D values) (h : named ∈ envs values)
    (hne : named ≠ (secondsName, values .maxReqS)) : Word (named.1 ++ 61 :: named.2) := by
  apply word_of_numerals (isName_of_mem h)
  intro b hb
  have hnumeral := (numerals_of_mem hvalid h).resolve_left hne b hb
  exact ⟨(plain_of_isNumeral hnumeral).1, (plain_of_isNumeral hnumeral).2.1⟩

/-- Plain seconds make a word as well. -/
theorem word_seconds (hvalid : validValue D .maxReqS v = true)
    (hplain : ∀ b ∈ v, isPlain b = true) : Word (secondsName ++ 61 :: v) := by
  have hzero : (0 : UInt8) ∉ v := fun hb => absurd (hplain 0 hb) (by decide)
  apply word_of_numerals (by decide)
  intro b hb
  refine ⟨hplain b hb, ?_⟩
  rintro rfl
  rcases seconds_text hvalid with hnil | ⟨front, number, hread, -, hfront, hnumber⟩
  · rw [cString_of_not_mem hzero] at hnil
    rw [hnil] at hb
    cases hb
  · rw [cString_of_not_mem hzero] at hread
    rw [hread] at hb
    rcases List.mem_append.mp hb with hb | hb
    · exact absurd (hfront _ hb) (by decide)
    · exact absurd (hnumber _ hb) (by decide)

theorem word_of_envs (hvalid : Accepted D values) (hplain : ∀ b ∈ values .maxReqS, isPlain b = true) :
    ∀ named ∈ envs values, Word (named.1 ++ 61 :: named.2) := by
  intro named hnamed
  by_cases hseconds : named = (secondsName, values .maxReqS)
  · rw [hseconds]
    exact word_seconds (hvalid .maxReqS) hplain
  · exact word_of_mem hvalid hnamed hseconds

theorem words_commandLine (hvalid : Accepted D values) (hpath : Word artifact.path)
    (hplain : ∀ b ∈ values .maxReqS, isPlain b = true) :
    words (commandLine values artifact.path) =
      (envs values).map (fun named => named.1 ++ 61 :: named.2) ++ text "cne_server" ::
        artifact.path :: (words (cString (printedHost values)) ++ [printedPort values]) := by
  have hwords := word_of_envs hvalid hplain
  have hname : Word (text "cne_server") := by decide
  rw [commandLine_eq, cString_envsText hwords, words_assignments hwords,
    Shell.words_append (by decide), words_of_word hname, words_argsText hpath (hvalid .port)]
  rfl

/-- Every shell runs the line with the values as they were chosen. -/
theorem simple_commandLine (hvalid : Accepted D values) (h : Prints artifact values) :
    Shell.Simple (commandLine values artifact.path) ∧
      command (words (commandLine values artifact.path)) = (envs values, [text "cne_server",
        artifact.path, cString (printedHost values), printedPort values]) := by
  apply simple_of_sets (fun _ => isName_of_mem) (word_of_envs hvalid h.maxReqS)
  · intro a ha
    rcases ha with _ | ⟨_, _ | ⟨_, _ | ⟨_, ⟨⟩⟩⟩⟩
    · exact h.path
    · exact h.hostWord
    · exact (word_printedPort (hvalid .port)).1
  · rw [words_commandLine hvalid h.path h.maxReqS, words_of_word h.hostWord]
    rfl

end Line

section Misread

variable {argv : List Str}

/-- Bytes of the seconds in front of the program's name are taken for a program. -/
theorem head_ne_server {x g t : Str} (hx : ∀ b ∈ x, b ≠ 61 ∧ b ≠ 95)
    (hne : ∃ b ∈ x, isBlank b = false) (hg : g = [] ∨ g = text "cne_server") :
    (command (words (x ++ (g ++ 32 :: t)))).2.head? ≠ some (text "cne_server") := by
  obtain ⟨b, hb, hblank⟩ := hne
  have hin : b ∈ x ++ g := List.mem_append_left g hb
  have heq : (61 : UInt8) ∉ x ++ g := by
    intro hmem
    rcases List.mem_append.mp hmem with hmem | hmem
    · exact (hx _ hmem).1 rfl
    · rcases hg with rfl | rfl
      · cases hmem
      · exact absurd hmem (by decide)
  rw [← List.append_assoc, Shell.words_append (by decide)]
  rcases hfirst : words (x ++ g) with _ | ⟨w, ws⟩
  · exact absurd hfirst (Shell.words_ne_nil hin hblank)
  have hw : (61 : UInt8) ∉ w := by
    have hmem : w ∈ words (x ++ g) := by
      rw [hfirst]
      exact List.mem_cons_self
    exact fun h => heq ((Shell.mem_words hmem).2 h)
  rw [List.cons_append, Shell.command_cons (Shell.assignment_eq_none hw), List.head?_cons, ne_eq,
    Option.some.injEq]
  rintro rfl
  -- the text without its blanks would begin with the name
  have hflat := Shell.flatten_words (x ++ g)
  rw [hfirst, List.flatten_cons, List.filter_append] at hflat
  have hcut := congrArg (List.takeWhile fun b : UInt8 => b ≠ 95) hflat
  have hfree : ∀ b ∈ x.filter fun b => !isBlank b, decide (b ≠ 95) = true := by
    intro b hb
    exact decide_eq_true (hx b (List.mem_of_mem_filter hb)).2
  have hname : text "cne_server" = [99, 110, 101] ++ 95 :: text "server" := by decide
  have hstart : ∀ s, (text "cne_server" ++ s).takeWhile (fun b => b ≠ 95) = [99, 110, 101] := by
    intro s
    rw [hname]
    rfl
  have hkeep : (text "cne_server").filter (fun b => !isBlank b) = text "cne_server" := by decide
  rcases hg with rfl | rfl
  · have hunder : (95 : UInt8) ∈ x.filter fun b => !isBlank b := by
      rw [List.filter_nil, List.append_nil] at hflat
      rw [← hflat, hname]
      simp
    exact absurd (hfree 95 hunder) (by decide)
  · rw [hkeep, List.takeWhile_append_of_pos hfree, hstart,
      ← List.append_nil (text "cne_server"), hstart] at hcut
    have hempty : x.filter (fun b => !isBlank b) = [] := by
      have hlen := congrArg List.length hcut
      rw [List.length_append] at hlen
      exact List.length_eq_zero_iff.mp (by omega)
    have hkept : b ∈ x.filter fun b => !isBlank b := by
      rw [List.mem_filter]
      exact ⟨hb, by simp [hblank]⟩
    rw [hempty] at hkept
    cases hkept

/-- The arguments alone are no command with the artifact among its arguments. -/
theorem argsText_no_command (hpath : Word artifact.path)
    (hport : validValue D .port (values .port) = true)
    (hhost : validValue D .host (values .host) = true) (hmem : artifact.path ∈ argv) :
    (command (words (argsText values artifact.path))).2 ≠ text "cne_server" :: argv := by
  intro hcommand
  have hgguf : ∀ w : Str, artifact.path = w → text ".gguf" <:+ w := by
    rintro w rfl
    exact artifact.path_gguf
  have hdigits : artifact.path ≠ printedPort values := by
    intro heq
    have hb : (46 : UInt8) ∈ printedPort values :=
      (hgguf _ heq).subset (show (46 : UInt8) ∈ text ".gguf" by decide)
    exact absurd ((word_printedPort hport).2 46 hb) (by decide)
  have hsuffix := Shell.command_suffix (words (argsText values artifact.path))
  rw [hcommand, words_argsText hpath hport] at hsuffix
  rcases List.suffix_cons_iff.mp hsuffix with heq | hsuffix
  · exact absurd (hgguf _ (List.cons.inj heq).1.symm) (by decide)
  · have hone : argv <:+ [printedPort values] := by
      rcases words_host hhost with hnil | hone
      · rw [hnil] at hsuffix
        exact (List.suffix_cons _ _).trans hsuffix
      · rw [hone, List.singleton_append] at hsuffix
        rcases List.suffix_cons_iff.mp hsuffix with heq | hsuffix
        · rw [(List.cons.inj heq).2]
        · exact (List.suffix_cons _ _).trans hsuffix
    exact hdigits (List.mem_singleton.mp (hone.subset hmem))

/-- The seconds in the line: they end at a zero byte, which takes the rest of the variables and the
blank along. -/
theorem exists_seconds (path : Str) (hvalid : Accepted D values) (hne : values .maxReqS ≠ []) :
    ∃ before g t, (∀ named ∈ before, isName named.1 = true ∧ Word (named.1 ++ 61 :: named.2)) ∧
      commandLine values path =
        setsText before ++ (secondsName ++ 61 :: (cString (values .maxReqS) ++ (g ++ 32 :: t))) ∧
      ((0 : UInt8) ∉ values .maxReqS ∧ g = [] ∨
        g = text "cne_server" ∧ t = argsText values path) := by
  have hmem : (secondsName, values .maxReqS) ∈ envs values :=
    mem_envs.mpr (.inl ⟨.maxReqS, _, rfl, hne, rfl⟩)
  obtain ⟨before, after, hsplit⟩ := List.append_of_mem hmem
  have hbefore : ∀ named ∈ before, isName named.1 = true ∧ Word (named.1 ++ 61 :: named.2) := by
    intro named hnamed
    have hin : named ∈ envs values := by
      rw [hsplit]
      exact List.mem_append_left _ hnamed
    refine ⟨isName_of_mem hin, word_of_mem hvalid hin ?_⟩
    rintro rfl
    have hnodup : (envs values).Nodup := List.Nodup.of_map _ envs_nodup
    rw [hsplit] at hnodup
    exact (List.nodup_append.mp hnodup).2.2 _ hnamed _ List.mem_cons_self rfl
  have hzero : (0 : UInt8) ∉ setsText before ++ (secondsName ++ [61]) := by
    intro hz
    rcases List.mem_append.mp hz with hz | hz
    · obtain ⟨named, hnamed, hb⟩ := List.mem_flatMap.mp hz
      have heq : text "=" = [61] := by decide
      have hblank : text " " = [32] := by decide
      have hword : (0 : UInt8) ∈ named.1 ++ 61 :: named.2 := by
        rw [heq, hblank] at hb
        simpa using hb
      exact absurd ((hbefore named hnamed).2.plain 0 hword) (by decide)
    · exact absurd hz (by decide)
  have hfront : envsText values = setsText before ++ (secondsName ++ [61]) ++
      (values .maxReqS ++ 32 :: setsText after) := by
    have heq : text "=" = [61] := by decide
    have hblank : text " " = [32] := by decide
    rw [envsText, hsplit]
    simp [setsText, heq, hblank]
  rw [commandLine_eq, hfront, cString_append hzero]
  by_cases hv : (0 : UInt8) ∈ values .maxReqS
  · refine ⟨before, text "cne_server", argsText values path, hbefore, ?_, .inr ⟨rfl, rfl⟩⟩
    have hcut : cString (values .maxReqS ++ 32 :: setsText after) = cString (values .maxReqS) := by
      obtain ⟨s, t, hs, hst⟩ := List.eq_append_cons_of_mem hv
      rw [hs, List.append_assoc, cString_append hst, cString_append hst]
      rfl
    rw [hcut]
    simp
  · refine ⟨before, [], cString (setsText after) ++ (text "cne_server" ++ 32 ::
      argsText values path), hbefore, ?_, .inl ⟨hv, rfl⟩⟩
    rw [cString_append hv, cString_of_not_mem hv]
    simp [cString]

/-- What follows a blank in the seconds would be the program. -/
theorem seconds_not_blank {g t : Str} (hvalid : validValue D .maxReqS v = true)
    (hg : g = [] ∨ g = text "cne_server")
    (hcommand : (command (words (secondsName ++ 61 :: (cString v ++ (g ++ 32 :: t))))).2 =
      text "cne_server" :: argv) : ∀ b ∈ cString v, isBlank b = false := by
  obtain hnil | ⟨front, number, hread, hnumber, hfront, hnumeral⟩ := seconds_text hvalid
  · rw [hnil]
    exact fun b hb => by cases hb
  have hplain : ∀ b ∈ number, isBlank b = false :=
    fun b hb => not_isBlank_of_isPlain (plain_of_isNumeral (hnumeral b hb)).1
  by_contra hblank
  have hsome : ∃ b ∈ front, isBlank b = true := by
    by_contra hnone
    apply hblank
    rw [hread]
    intro b hb
    rcases List.mem_append.mp hb with hb | hb
    · exact Bool.eq_false_iff.mpr fun h => hnone ⟨b, hb, h⟩
    · exact hplain b hb
  obtain ⟨b, hfind⟩ := Option.isSome_iff_exists.mp (List.find?_isSome.mpr hsome)
  obtain ⟨hb, s, u, rfl, hs⟩ := List.find?_eq_some_iff_append.mp hfind
  have hall : ∀ c ∈ secondsName ++ 61 :: s, isBlank c = false := by
    have hname : ∀ b ∈ secondsName ++ [61], isBlank b = false := plain_not_isBlank (by decide)
    rw [List.append_cons]
    exact fun c hc => (List.mem_append.mp hc).elim (hname c) fun hc => by simpa using hs c hc
  have hx : ∀ c ∈ u ++ number, c ≠ 61 ∧ c ≠ 95 := by
    have hspace : ∀ c, isSpace c = true → c ≠ 61 ∧ c ≠ 95 := by
      intro c hc
      refine ⟨?_, ?_⟩ <;> rintro rfl <;> cases hc
    intro c hc
    rcases List.mem_append.mp hc with hc | hc
    · exact hspace c (hfront c (by simp [hc]))
    · have hc := plain_of_isNumeral (hnumeral c hc)
      exact ⟨hc.2.2.1, hc.2.2.2.1⟩
  have hfirst : ∃ c ∈ u ++ number, isBlank c = false := by
    obtain ⟨c, hc⟩ := List.exists_mem_of_ne_nil number hnumber
    exact ⟨c, List.mem_append_right u hc, hplain c hc⟩
  have hsplit : secondsName ++ 61 :: (s ++ b :: u ++ number ++ (g ++ 32 :: t)) =
      (secondsName ++ 61 :: s) ++ b :: ((u ++ number) ++ (g ++ 32 :: t)) := by
    simp
  rw [hread, hsplit, Shell.words_append hb, Shell.words_single hall (by simp),
    List.singleton_append, command, Shell.assignment_append (by decide)] at hcommand
  exact head_ne_server (t := t) hx hfirst hg (congrArg List.head? hcommand)

/-- If a shell runs the server on the artifact, the seconds are plain. -/
theorem seconds_plain (hvalid : Accepted D values) (hpath : Word artifact.path)
    (hmem : artifact.path ∈ argv)
    (hwords : ∀ w ∈ words (commandLine values artifact.path), Word w)
    (hcommand : (command (words (commandLine values artifact.path))).2 =
      text "cne_server" :: argv) : ∀ b ∈ values .maxReqS, isPlain b = true := by
  by_cases hne : values .maxReqS = []
  · intro b hb
    rw [hne] at hb
    cases hb
  obtain ⟨before, g, t, hbefore, hline, hgap⟩ := exists_seconds artifact.path hvalid hne
  have hassigned : ∀ named ∈ before, assignment (named.1 ++ 61 :: named.2) = some named :=
    fun named hnamed => Shell.assignment_append (hbefore named hnamed).1
  rw [hline, words_assignments fun named hnamed => (hbefore named hnamed).2] at hwords hcommand
  rw [Shell.command_append hassigned] at hcommand
  have hname : ∀ b ∈ secondsName ++ [61], isBlank b = false := plain_not_isBlank (by decide)
  have hblank := seconds_not_blank (hvalid .maxReqS) (hgap.imp And.right And.left) hcommand
  rcases hgap with ⟨hzero, rfl⟩ | ⟨rfl, rfl⟩
  · rw [cString_of_not_mem hzero] at hblank hwords
    have hall : ∀ b ∈ secondsName ++ 61 :: values .maxReqS, isBlank b = false := by
      rw [List.append_cons]
      exact fun b hb => (List.mem_append.mp hb).elim (hname b) (hblank b)
    have hword : secondsName ++ 61 :: values .maxReqS ∈
        words (secondsName ++ 61 :: (values .maxReqS ++ ([] ++ 32 :: t))) := by
      rw [List.nil_append, ← List.cons_append, ← List.append_assoc,
        Shell.words_append (by decide), Shell.words_single hall (by simp)]
      exact List.mem_append_left _ List.mem_cons_self
    intro b hb
    exact (hwords _ (List.mem_append_right _ hword)).plain b (by simp [hb])
  · -- the name of the program has become part of the value
    have hall : ∀ b ∈ secondsName ++ 61 :: (cString (values .maxReqS) ++ text "cne_server"),
        isBlank b = false := by
      have hserver : ∀ b ∈ text "cne_server", isBlank b = false := plain_not_isBlank (by decide)
      rw [List.append_cons]
      intro b hb
      rcases List.mem_append.mp hb with hb | hb
      · exact hname b hb
      · exact (List.mem_append.mp hb).elim (hblank b) (hserver b)
    rw [← List.append_assoc (cString (values .maxReqS)), ← List.cons_append,
      ← List.append_assoc, Shell.words_append (by decide), Shell.words_single hall (by simp),
      List.singleton_append, command, Shell.assignment_append (by decide)] at hcommand
    exact absurd hcommand (argsText_no_command hpath (hvalid .port) (hvalid .host) hmem)

/-- What runs the server on the artifact has the values as they were chosen, but the host may be
missing. -/
theorem command_of_simple (hvalid : Accepted D values)
    (hsimple : Shell.Simple (commandLine values artifact.path)) (hmem : artifact.path ∈ argv)
    (hcommand : (command (words (commandLine values artifact.path))).2 =
      text "cne_server" :: argv) :
    Word artifact.path ∧ (∀ b ∈ values .maxReqS, isPlain b = true) ∧
      (∀ w ∈ words (cString (printedHost values)), Word w) ∧
      command (words (commandLine values artifact.path)) = (envs values, text "cne_server" ::
        artifact.path :: (words (cString (printedHost values)) ++ [printedPort values])) := by
  have hpath : Word artifact.path := by
    apply hsimple.word
    apply (Shell.command_suffix _).subset
    rw [hcommand]
    exact List.mem_cons_of_mem _ hmem
  have hplain := seconds_plain hvalid hpath hmem hsimple.word hcommand
  have hwords := words_commandLine hvalid hpath hplain
  refine ⟨hpath, hplain, fun w hw => hsimple.word w ?_, ?_⟩
  · rw [hwords]
    exact List.mem_append_right _ (by simp [hw])
  · have hassigned : ∀ named ∈ envs values, assignment (named.1 ++ 61 :: named.2) = some named :=
      fun named hnamed => Shell.assignment_append (isName_of_mem hnamed)
    rw [hwords, Shell.command_append hassigned, Shell.command_cons (by decide), List.append_nil]

end Misread

end NotreEngine.Config
