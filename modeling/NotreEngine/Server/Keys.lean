import NotreEngine.Assoc
import NotreEngine.Config.Env
import NotreEngine.Decimal
import NotreEngine.Lines
import NotreEngine.Session.Tenancy

/-!
# API keys

The keys of `cne_api.cpp`, from the environment and from a key file, and the user that the headers
of a request speak for.
-/

namespace NotreEngine.Server

open Gguf (text)
open Config (Environment lookup)
open Decimal (isSpace)
open Session (HttpError)

def trimWs (s : Str) : Str := Lines.trim isSpace s

/-- `tolower` of the C locale. -/
def lower (s : Str) : Str := s.map fun c => if 65 ≤ c && c ≤ 90 then c + 32 else c

def splitCsv (csv : Str) : List Str := ((Lines.split 44 csv).map trimWs).filter (· ≠ [])

/-- The characters that end the key of a line. -/
def isGap (c : UInt8) : Bool := c = 32 || c = 9

def parseKeyLine (line : Str) : Option (Str × Str) :=
  let t := trimWs line
  if t = [] ∨ t.head? = some 35 then none
  else
    match t.findIdx? isGap with
    | none => some (t, [])
    | some sp =>
      let key := trimWs (t.take sp)
      let user := trimWs (t.drop (sp + 1))
      if key = [] then none else some (key, user)

/-- The set of the keys and the map from keys to users. -/
structure Keys where
  keys : Finset Str := ∅
  keyToUser : Str → Option Str := fun _ => none

namespace Keys

def ingest (t : Keys) (key user : Str) : Keys :=
  if key = [] then t
  else
    { keys := insert key t.keys
      keyToUser :=
        if user = [] then t.keyToUser else Function.update t.keyToUser key (some user) }

def ingestLine (t : Keys) (line : Str) : Keys :=
  match parseKeyLine line with
  | some (key, user) => t.ingest key user
  | none => t

end Keys

/-- `load_keys` up to the key file. -/
def envKeys (environ : Environment) : Keys :=
  let single := (lookup environ (text "API_KEY")).elim {} fun v => Keys.ingest {} v []
  (lookup environ (text "API_KEYS")).elim single fun csv => (splitCsv csv).foldl .ingestLine single

/-- The keys and whether the load succeeded; `readFile` gives nothing for a file that cannot be
opened. -/
def loadKeys (environ : Environment) (readFile : Str → Option Str) : Keys × Bool :=
  let t := envKeys environ
  let path := (lookup environ (text "API_KEYS_FILE")).getD []
  if path ≠ [] then
    match readFile path with
    | none => (t, false)
    | some content =>
      let t := (Lines.split 10 content).foldl .ingestLine t
      (t, decide (t.keys ≠ ∅))
  else (t, decide (t.keys ≠ ∅))

/-- The keys of the configuration file are added to those that were loaded, if any. -/
def mergeApiKeys (environ : Environment) (readFile : Str → Option Str) (cfgApiKeys : List Str) :
    Keys :=
  let t := (loadKeys environ readFile).1
  { t with keys := t.keys ∪ cfgApiKeys.toFinset }

/-- The map that `authenticate` is given, in some order of its own. -/
def collectHeaders (headers : List (Str × Str)) : List (Str × Str) :=
  headers.foldl (fun out h => Assoc.put out h.1 h.2) []

/-- `headers` in the order in which the map is visited. -/
def headerGet (headers : List (Str × Str)) (name : Str) : Str :=
  ((headers.find? fun kv => lower kv.1 = lower name).map Prod.snd).getD []

def noKeys : HttpError := ⟨503, "API mode enabled but no API keys configured"⟩

def noBearer : HttpError :=
  ⟨401, "missing or invalid Authorization header (Bearer token required)"⟩

def invalidKey : HttpError := ⟨401, "invalid API key"⟩

def wrongUser : HttpError := ⟨403, "X-User-Id does not match API key"⟩

def noUser : HttpError := ⟨400, "X-User-Id header required in API mode"⟩

/-- The user that a key and an `X-User-Id` speak for. -/
def keyUser (t : Keys) (token user : Str) : Except HttpError Str :=
  let mapped : Except HttpError Str :=
    match t.keyToUser token with
    | some mapped =>
      if user ≠ [] ∧ user ≠ mapped then .error wrongUser
      else .ok (if user = [] then mapped else user)
    | none => .ok user
  mapped >>= fun user => if user = [] then .error noUser else .ok user

/-- The user of a request; with the API mode off it has none. -/
def authenticate (enabled : Bool) (t : Keys) (headers : List (Str × Str)) :
    Except HttpError Str :=
  if ¬enabled then .ok []
  else if t.keys = ∅ then .error noKeys
  else
    let auth := headerGet headers (text "Authorization")
    let pre := text "Bearer "
    if auth.length ≤ pre.length ∨ auth.take pre.length ≠ pre then .error noBearer
    else
      let token := trimWs (auth.drop pre.length)
      if token ∉ t.keys then .error invalidKey
      else keyUser t token (trimWs (headerGet headers (text "X-User-Id")))

section Table

variable {t : Keys} {k key user u token : Str} {es headers : List (Str × Str)}

theorem keyUser_ok (h : keyUser t token user = .ok u) :
    u ≠ [] ∧ (t.keyToUser token = some u ∨ t.keyToUser token = none ∧ u = user) := by
  have hnamed : ∀ v, (if v = [] then Except.error noUser else Except.ok v) = Except.ok u →
      u ≠ [] ∧ v = u := by
    intro v hv
    split at hv
    · cases hv
    · rename_i hne
      obtain rfl := Except.ok.inj hv
      exact ⟨hne, rfl⟩
  cases hm : t.keyToUser token with
  | none =>
    simp only [keyUser, hm] at h
    obtain ⟨hne, heq⟩ := hnamed user h
    exact ⟨hne, Or.inr ⟨rfl, heq.symm⟩⟩
  | some m =>
    simp only [keyUser, hm] at h
    split at h
    · cases h
    · rename_i hfree
      obtain ⟨hne, heq⟩ := hnamed _ h
      refine ⟨hne, Or.inl ?_⟩
      split at heq
      · rw [heq]
      · rename_i huser
        have hm : user = m := by
          by_contra hne
          exact hfree ⟨huser, hne⟩
        rw [← hm, heq]

/-- Who is let in has a key that is known, and is the user of that key or, with a key that has
none, whom the request names. -/
theorem authenticate_ok (h : authenticate true t headers = .ok u) :
    ∃ w, headerGet headers (text "Authorization") = text "Bearer " ++ w ∧
      trimWs w ∈ t.keys ∧ u ≠ [] ∧
      (t.keyToUser (trimWs w) = some u ∨
        t.keyToUser (trimWs w) = none ∧ u = trimWs (headerGet headers (text "X-User-Id"))) := by
  simp only [authenticate, not_true_eq_false, if_false] at h
  split at h
  · cases h
  · split at h
    · cases h
    · rename_i hbearer
      obtain ⟨-, hpre⟩ := not_or.mp hbearer
      split at h
      · cases h
      · rename_i hmem
        refine ⟨_, ?_, not_not.mp hmem, keyUser_ok h⟩
        have hsplit := List.take_append_drop (text "Bearer ").length
          (headerGet headers (text "Authorization"))
        rwa [not_not.mp hpre, eq_comm] at hsplit

/-- The last user that is listed for a key. -/
def lastUser (es : List (Str × Str)) (k : Str) : Option Str :=
  ((es.filter fun e => e.1 = k ∧ e.2 ≠ []).map Prod.snd).getLast?

theorem lastUser_cons (e : Str × Str) (es : List (Str × Str)) (k : Str) :
    lastUser (e :: es) k =
      (lastUser es k).or (if e.1 = k ∧ e.2 ≠ [] then some e.2 else none) := by
  unfold lastUser
  by_cases h : e.1 = k ∧ e.2 ≠ []
  · rw [List.filter_cons_of_pos (by simpa using h), List.map_cons, List.getLast?_cons, if_pos h]
    cases ((es.filter fun e => e.1 = k ∧ e.2 ≠ []).map Prod.snd).getLast? <;> rfl
  · rw [List.filter_cons_of_neg (by simpa using h), if_neg h, Option.or_none]

theorem mem_ingest (hkey : key ≠ []) : k ∈ (t.ingest key user).keys ↔ k = key ∨ k ∈ t.keys := by
  rw [Keys.ingest, if_neg hkey]
  exact Finset.mem_insert

theorem keyToUser_ingest (hkey : key ≠ []) :
    (t.ingest key user).keyToUser k =
      (if key = k ∧ user ≠ [] then some user else none).or (t.keyToUser k) := by
  rw [Keys.ingest, if_neg hkey]
  by_cases huser : user = []
  · simp [huser]
  · by_cases hk : key = k
    · subst hk
      simp [huser]
    · simp [huser, hk, Function.update_of_ne (Ne.symm hk)]

/-- A table after a list of entries: the last user that is given to a key counts, and an entry
without a user leaves the key its user. -/
theorem ingest_all (t : Keys) (hes : ∀ e ∈ es, e.1 ≠ []) (k : Str) :
    let t' := es.foldl (fun t e => t.ingest e.1 e.2) t
    (k ∈ t'.keys ↔ k ∈ t.keys ∨ ∃ u, (k, u) ∈ es) ∧
      t'.keyToUser k = (lastUser es k).or (t.keyToUser k) := by
  induction es generalizing t with
  | nil => simp [lastUser]
  | cons e es ih =>
    obtain ⟨key, user⟩ := e
    have hkey : key ≠ [] := hes _ List.mem_cons_self
    obtain ⟨hkeys, huser⟩ := ih (t.ingest key user) fun e he => hes e (List.mem_cons_of_mem _ he)
    rw [mem_ingest hkey] at hkeys
    rw [keyToUser_ingest hkey] at huser
    refine ⟨hkeys.trans ?_, ?_⟩
    · simp only [List.mem_cons, Prod.mk.injEq, exists_or, exists_and_left, exists_eq, and_true]
      tauto
    · rw [List.foldl_cons, huser, lastUser_cons, Option.or_assoc]

end Table

/-- A line of a key file as it is laid out. -/
inductive KeyLine where
  | blank (s : Str)
  | comment (indent remark : Str)
  | entry (indent key gap user tail : Str)

namespace KeyLine

def render : KeyLine → Str
  | blank s => s
  | comment indent remark => indent ++ 35 :: remark
  | entry indent key gap user tail => indent ++ key ++ gap ++ user ++ tail

/-- The key that the line gives and its user, if any. -/
def named : KeyLine → Option (Str × Str)
  | entry _ key _ user _ => some (key, user)
  | _ => none

def Blank (s : Str) : Prop := s.all isSpace = true

/-- A key is a word and no comment, a user may have blanks inside, and between the two stands a
space or a tab. -/
def Shaped : KeyLine → Prop
  | blank s => Blank s
  | comment indent _ => Blank indent
  | entry indent key gap user tail =>
    Blank indent ∧ Blank gap ∧ Blank tail ∧ key.any isSpace = false ∧ key ≠ [] ∧
      key.head? ≠ some 35 ∧ trimWs user = user ∧ (user ≠ [] → gap.any isGap = true)

structure WellFormed (l : KeyLine) : Prop where
  shaped : l.Shaped
  one : 10 ∉ l.render

theorem Blank.all {s : Str} (h : Blank s) : ∀ c ∈ s, isSpace c = true := List.all_eq_true.mp h

theorem word_all {s : Str} (h : s.any isSpace = false) : ∀ c ∈ s, isSpace c = false :=
  fun c hc => Bool.eq_false_iff.mpr (List.any_eq_false.mp h c hc)

theorem isSpace_of_isGap {c : UInt8} (h : isGap c = true) : isSpace c = true := by
  rcases Bool.or_eq_true_iff.mp h with hc | hc
  · rw [of_decide_eq_true hc]
    decide
  · rw [of_decide_eq_true hc]
    decide

theorem findIdx?_gap {a b : Str} {c : UInt8} (ha : ∀ x ∈ a, isGap x = false)
    (hc : isGap c = true) : (a ++ c :: b).findIdx? isGap = some a.length := by
  induction a with
  | nil => simp [List.findIdx?_cons, hc]
  | cons x a ih =>
    rw [List.cons_append, List.findIdx?_cons, ha x List.mem_cons_self,
      ih fun y hy => ha y (List.mem_cons_of_mem _ hy)]
    rfl

/-- What stands before the first gap of the blanks between a key and its user. -/
theorem exists_gap {gap : Str} (h : gap.any isGap = true) :
    ∃ a c b, gap = a ++ c :: b ∧ (∀ x ∈ a, isGap x = false) ∧ isGap c = true := by
  induction gap with
  | nil => cases h
  | cons x gap ih =>
    cases hx : isGap x with
    | true => exact ⟨[], x, gap, rfl, by simp, hx⟩
    | false =>
      rw [List.any_cons, hx, Bool.false_or] at h
      obtain ⟨a, d, b, rfl, ha, hd⟩ := ih h
      refine ⟨x :: a, d, b, rfl, ?_, hd⟩
      intro y hy
      rcases List.mem_cons.mp hy with rfl | hy
      · exact hx
      · exact ha y hy

theorem isGap_of_not_isSpace {c : UInt8} (h : isSpace c = false) : isGap c = false := by
  rw [Bool.eq_false_iff]
  intro hgap
  rw [isSpace_of_isGap hgap] at h
  cases h

theorem parseKeyLine_entry {indent key gap user tail : Str}
    (h : (entry indent key gap user tail).Shaped) :
    parseKeyLine (entry indent key gap user tail).render = some (key, user) := by
  obtain ⟨hindent, hgap, htail, hword, hne, hhead, huser, hsep⟩ := h
  replace hindent := hindent.all
  replace hgap := hgap.all
  replace htail := htail.all
  replace hword := word_all hword
  have hkey : trimWs key = key := Lines.trim_of_none hword
  have hword' : ∀ c ∈ key, isGap c = false := fun c hc => isGap_of_not_isSpace (hword c hc)
  by_cases hu : user = []
  · subst hu
    have htrim : trimWs (entry indent key gap [] tail).render = key := by
      rw [render, List.append_nil, List.append_assoc (indent ++ key)]
      refine (Lines.trim_blanks hindent ?_ key).trans hkey
      intro c hc
      rcases List.mem_append.mp hc with hc | hc
      · exact hgap c hc
      · exact htail c hc
    simp only [parseKeyLine, htrim, if_neg (not_or.mpr ⟨hne, hhead⟩),
      List.findIdx?_eq_none_iff.mpr hword']
  · obtain ⟨a, c, b, rfl, ha, hc⟩ := exists_gap (hsep hu)
    have htrim : trimWs (entry indent key (a ++ c :: b) user tail).render =
        (key ++ a) ++ c :: (b ++ user) := by
      have hmid := Lines.trim_append hkey hne huser hu (a ++ c :: b)
      have hends := Lines.trim_blanks hindent htail (key ++ (a ++ c :: b) ++ user)
      rw [hmid] at hends
      rw [render, trimWs]
      simpa [List.append_assoc] using hends
    have hbefore : ∀ x ∈ key ++ a, isGap x = false := by
      intro x hx
      rcases List.mem_append.mp hx with hx | hx
      · exact hword' x hx
      · exact ha x hx
    have hkey' : trimWs (key ++ a) = key :=
      (Lines.trim_back (fun x hx => hgap x (List.mem_append_left _ hx)) key).trans hkey
    have huser' : trimWs (b ++ user) = user := by
      have hblank : ∀ x ∈ b, isSpace x = true := fun x hx =>
        hgap x (List.mem_append_right _ (List.mem_cons_of_mem _ hx))
      exact (Lines.trim_front hblank user).trans huser
    have hfirst : ¬((key ++ a) ++ c :: (b ++ user) = [] ∨
        ((key ++ a) ++ c :: (b ++ user)).head? = some 35) := by
      cases key with
      | nil => exact absurd rfl hne
      | cons x key =>
        rintro (hnil | h35)
        · cases hnil
        · exact hhead h35
    have hdrop : ((key ++ a) ++ c :: (b ++ user)).drop ((key ++ a).length + 1) = b ++ user := by
      rw [← List.drop_drop, List.drop_left]
      rfl
    simp only [parseKeyLine, htrim, if_neg hfirst, findIdx?_gap hbefore hc, List.take_left, hdrop,
      hkey', huser', if_neg hne]

theorem parseKeyLine_render {l : KeyLine} (h : l.Shaped) : parseKeyLine l.render = l.named := by
  cases l with
  | blank s =>
    have hblank : trimWs s = [] := by
      have hnil := Lines.trim_front (Blank.all h) []
      rwa [List.append_nil] at hnil
    simp [parseKeyLine, render, named, hblank]
  | comment indent remark =>
    have hhash : (trimWs (indent ++ 35 :: remark)).head? = some 35 := by
      rw [trimWs, Lines.trim_front (Blank.all h)]
      exact Lines.head?_trim (by decide)
    simp [parseKeyLine, render, named, hhash]
  | entry indent key gap user tail => exact parseKeyLine_entry h

end KeyLine

/-- The lines of a key file, the last of them not ended. -/
def fileText (lines : List KeyLine) (last : KeyLine) : Str :=
  lines.flatMap (fun l => l.render ++ [10]) ++ last.render

section File

variable {lines : List KeyLine} {last : KeyLine} {t : Keys}

theorem split_fileText (hlines : ∀ l ∈ lines, l.WellFormed) (hlast : last.WellFormed) :
    Lines.split 10 (fileText lines last) =
      lines.map KeyLine.render ++ if last.render = [] then [] else [last.render] := by
  induction lines with
  | nil =>
    rw [fileText, List.flatMap_nil, List.nil_append, List.map_nil, List.nil_append]
    split
    · rename_i hnil
      rw [hnil]
      rfl
    · rename_i hne
      exact Lines.split_single hlast.one hne
  | cons l lines ih =>
    have hcons : fileText (l :: lines) last = l.render ++ 10 :: fileText lines last := by
      simp [fileText]
    rw [hcons, Lines.split_append (hlines l List.mem_cons_self).one,
      ih fun l' hl' => hlines l' (List.mem_cons_of_mem _ hl')]
    rfl

/-- What a line adds to a table is the key it gives. -/
theorem ingestLine_render {l : KeyLine} (h : l.Shaped) (t : Keys) :
    t.ingestLine l.render = (l.named.toList).foldl (fun t e => t.ingest e.1 e.2) t := by
  rw [Keys.ingestLine, KeyLine.parseKeyLine_render h]
  cases l.named <;> rfl

theorem ingestLine_nil (t : Keys) : t.ingestLine [] = t := rfl

theorem foldl_ingestLine (hlines : ∀ l ∈ lines, l.WellFormed) (t : Keys) :
    (lines.map KeyLine.render).foldl .ingestLine t =
      (lines.filterMap KeyLine.named).foldl (fun t e => t.ingest e.1 e.2) t := by
  induction lines generalizing t with
  | nil => rfl
  | cons l lines ih =>
    rw [List.map_cons, List.foldl_cons, ih fun l' hl' => hlines l' (List.mem_cons_of_mem _ hl'),
      ingestLine_render (hlines l List.mem_cons_self).shaped]
    cases hn : l.named with
    | none => rw [List.filterMap_cons_none hn]; rfl
    | some e => rw [List.filterMap_cons_some hn]; rfl

theorem named_ne_nil {l : KeyLine} {e : Str × Str} (h : l.Shaped) (he : l.named = some e) :
    e.1 ≠ [] := by
  cases l with
  | entry indent key gap user tail =>
    obtain ⟨_, _, _, _, hne, _⟩ := h
    cases he
    exact hne
  | blank s => cases he
  | comment indent remark => cases he

/-- The text of a key file is read back as the entries of its lines. -/
theorem foldl_fileText (hlines : ∀ l ∈ lines, l.WellFormed) (hlast : last.WellFormed) (t : Keys) :
    (Lines.split 10 (fileText lines last)).foldl .ingestLine t =
      ((lines ++ [last]).filterMap KeyLine.named).foldl (fun t e => t.ingest e.1 e.2) t := by
  rw [split_fileText hlines hlast, List.foldl_append, foldl_ingestLine hlines,
    List.filterMap_append, List.foldl_append]
  generalize (lines.filterMap KeyLine.named).foldl (fun t e => t.ingest e.1 e.2) t = t'
  have hend : [last].filterMap KeyLine.named = last.named.toList := by
    cases hn : last.named <;> simp [hn]
  rw [hend, ← ingestLine_render hlast.shaped]
  split
  · rename_i hnil
    rw [hnil, ingestLine_nil]
    rfl
  · rfl

/-- A key file as it is laid out, with its comments, blanks and missing users, is loaded as what it
lists: the keys are added to those of the environment, and each has the last user it is given. -/
theorem loadKeys_fileText (environ : Environment) (readFile : Str → Option Str) (path : Str)
    (hpath : lookup environ (text "API_KEYS_FILE") = some path) (hne : path ≠ [])
    (hlines : ∀ l ∈ lines, l.WellFormed) (hlast : last.WellFormed)
    (hread : readFile path = some (fileText lines last)) (k : Str) :
    (k ∈ (loadKeys environ readFile).1.keys ↔
        k ∈ (envKeys environ).keys ∨ ∃ l ∈ lines ++ [last], ∃ u, l.named = some (k, u)) ∧
      (loadKeys environ readFile).1.keyToUser k =
        (lastUser ((lines ++ [last]).filterMap KeyLine.named) k).or
          ((envKeys environ).keyToUser k) := by
  have hes : ∀ e ∈ (lines ++ [last]).filterMap KeyLine.named, e.1 ≠ [] := by
    intro e he
    obtain ⟨l, hl, hnamed⟩ := List.mem_filterMap.mp he
    rcases List.mem_append.mp hl with hl | hl
    · exact named_ne_nil (hlines l hl).shaped hnamed
    · rw [List.mem_singleton.mp hl] at hnamed
      exact named_ne_nil hlast.shaped hnamed
  obtain ⟨hkeys, huser⟩ := ingest_all (envKeys environ) hes k
  have hload : (loadKeys environ readFile).1 =
      ((lines ++ [last]).filterMap KeyLine.named).foldl (fun t e => t.ingest e.1 e.2)
        (envKeys environ) := by
    simp only [loadKeys, hpath, Option.getD_some, if_pos hne, hread]
    exact foldl_fileText hlines hlast _
  rw [hload]
  refine ⟨hkeys.trans ?_, huser⟩
  apply or_congr Iff.rfl
  constructor
  · rintro ⟨u, hu⟩
    obtain ⟨l, hl, hnamed⟩ := List.mem_filterMap.mp hu
    exact ⟨l, hl, u, hnamed⟩
  · rintro ⟨l, hl, u, hnamed⟩
    exact ⟨u, List.mem_filterMap.mpr ⟨l, hl, hnamed⟩⟩

/-- A remark, a key with a user before a carriage return, and the same key without a user. -/
def teamLines : List KeyLine :=
  [.comment [] (text " team"), .entry [9] (text "k1") [32] (text "alice") [13]]

def fileEnviron : Environment := fun name =>
  if name = Config.cneName (text "API_KEYS_FILE") then some (text "keys.txt") else none

theorem loadKeys_fileText_team :
    text "k1" ∈ (loadKeys fileEnviron fun _ =>
        some (fileText teamLines (.entry [] (text "k1") [] [] []))).1.keys ∧
      (loadKeys fileEnviron fun _ =>
        some (fileText teamLines (.entry [] (text "k1") [] [] []))).1.keyToUser (text "k1") =
        some (text "alice") := by
  have hlines : ∀ l ∈ teamLines, l.WellFormed := by
    intro l hl
    rcases List.mem_cons.mp hl with rfl | hl
    · exact ⟨rfl, by decide⟩
    · rw [List.mem_singleton.mp hl]
      exact ⟨⟨rfl, rfl, rfl, by decide, by decide, by decide, by decide, by decide⟩, by decide⟩
  have hlast : (KeyLine.entry [] (text "k1") [] [] []).WellFormed :=
    ⟨⟨rfl, rfl, rfl, by decide, by decide, by decide, by decide, by decide⟩, by decide⟩
  have h := loadKeys_fileText fileEnviron (fun _ => some _) (text "keys.txt") (by decide)
    (by decide) hlines hlast rfl (text "k1")
  exact ⟨h.1.mpr (Or.inr ⟨_, List.mem_append_right _ (List.mem_singleton.mpr rfl), [], rfl⟩),
    h.2.trans (by decide)⟩

end File

end NotreEngine.Server
