import NotreEngine.Gateway.Proxy
import NotreEngine.Server.Keys

/-!
# The clients of the gateway

The client keys of `auth.py`, the user that they name for a request, and whom the engine takes the
request for once it is forwarded.
-/

namespace NotreEngine.Gateway

open Gguf (text)
open Config (Environment)
open Session (HttpError)
open Server (Keys authenticate collectHeaders headerGet lower trimWs)

/-- `str.splitlines`, on the encoding of a text; `item` is what has been read of the line. -/
def linesFrom : Str → Str → List Str
  | item, [] => if item = [] then [] else [item]
  | item, 13 :: 10 :: cs => item :: linesFrom [] cs
  | item, 194 :: 133 :: cs => item :: linesFrom [] cs
  | item, 226 :: 128 :: 168 :: cs => item :: linesFrom [] cs
  | item, 226 :: 128 :: 169 :: cs => item :: linesFrom [] cs
  | item, c :: cs =>
    if c ∈ [10, 11, 12, 13, 28, 29, 30] then item :: linesFrom [] cs
    else linesFrom (item ++ [c]) cs

/-- A text up to its first blank, and from there on. -/
def breakBlank : Str → Str × Str
  | [] => ([], [])
  | c :: cs =>
    if spaces.any fun b => b.isPrefixOf (c :: cs) then ([], c :: cs)
    else (c :: (breakBlank cs).1, (breakBlank cs).2)

/-- `s.split(None, 1)`, for a text that is not blank at either end. -/
def splitOnce (s : Str) : List Str :=
  let (front, rest) := breakBlank s
  let rest := stripFront spaces rest.length rest
  if front = [] then [] else if rest = [] then [front] else [front, rest]

def ingest (t : Keys) (key user : Str) : Keys :=
  let key := strip key
  let user := strip user
  if key = [] ∨ user = [] then t
  else
    { keys := insert key t.keys, keyToUser := Function.update t.keyToUser key (some user) }

def ingestLine (t : Keys) (line : Str) : Keys :=
  let line := strip line
  if line = [] ∨ line.head? = some 35 then t
  else
    match splitOnce line with
    | [key, user] => ingest t key user
    | [key] => ingest t key key
    | _ => t

def ingestItem (t : Keys) (item : Str) : Keys :=
  let item := strip item
  if item = [] then t
  else
    match item.idxOf? 58 with
    | some i => ingest t (item.take i) (item.drop (i + 1))
    | none => ingest t item item

/-- `load_api_keys`; `file` is the text of the key file, if there is one. -/
def loadApiKeys (file : Option Str) (environ : Environment) : Keys :=
  let t := file.elim {} fun content => (linesFrom [] content).foldl ingestLine {}
  let single := (environ (text "CNE_GATEWAY_API_KEY")).getD []
  let t :=
    if single = [] then t
    else ingest t single ((environ (text "CNE_GATEWAY_API_KEY_USER")).getD single)
  let csv := (environ (text "CNE_GATEWAY_API_KEYS")).getD []
  if csv = [] then t else (csv.splitOn 44).foldl ingestItem t

def authenticateApiKey (token : Str) (t : Keys) : Except HttpError Str :=
  if t.keys = ∅ then .error ⟨503, "no client API keys configured"⟩
  else if token ∉ t.keys then .error ⟨401, "invalid API key"⟩
  else if (t.keyToUser token).getD [] = [] then .error ⟨503, "API key has no user mapping"⟩
  else .ok ((t.keyToUser token).getD [])

def hexDigit (n : UInt8) : UInt8 := (text "0123456789abcdef").getD n.toNat 0

/-- `buf` is what was read of `/dev/urandom`, if all of it was. -/
def genInternalApiKey (buf : Option Str) : Str :=
  match buf with
  | none => text "change-me-in-production"
  | some buf =>
    text "cne_internal_" ++ buf.flatMap fun (b : UInt8) => [hexDigit (b >>> 4), hexDigit (b &&& 15)]

/-- The key that the setup program writes, for the value of `CNE_SETUP_INTERNAL_API_KEY`. -/
def setupKey (preset buf : Option Str) : Str :=
  if preset.getD [] ≠ [] then preset.getD [] else genInternalApiKey buf

/-- The remark in the first line, with an arrow of three bytes. -/
def setupRemark : Str :=
  text " Internal key for cne_gateway " ++ [226, 134, 146] ++
    text " cne_server (not client keys)"

def setupKeyFile (preset buf : Option Str) : Str :=
  [35] ++ setupRemark ++ [10] ++ setupKey preset buf ++ [10]

/-- The headers of a request arrive, among others that are not spelled like one of them. -/
structure Carries (sent arrived : List (Str × Str)) : Prop where
  present : ∀ h ∈ sent, ∃ a ∈ arrived, lower a.1 = lower h.1
  unchanged : ∀ h ∈ sent, ∀ a ∈ arrived, lower a.1 = lower h.1 → a.2 = h.2

section Strip

variable {blanks : List Str} {n : Nat} {s : Str}

theorem stripFront_suffix (blanks : List Str) (n : Nat) (s : Str) :
    stripFront blanks n s <:+ s := by
  induction n generalizing s with
  | zero => exact List.suffix_refl s
  | succ n ih =>
    rw [stripFront]
    split
    · exact (ih _).trans (List.drop_suffix _ _)
    · exact List.suffix_refl s

/-- With enough rounds nothing that can be stripped is left in front. -/
theorem stripFront_front (hblanks : [] ∉ blanks) (hn : s.length ≤ n) :
    ∀ b ∈ blanks, ¬b <+: stripFront blanks n s := by
  induction n generalizing s with
  | zero =>
    have hnil : s = [] := List.length_eq_zero_iff.mp (Nat.le_zero.mp hn)
    subst hnil
    intro b hb hpre
    exact hblanks (List.prefix_nil.mp hpre ▸ hb)
  | succ n ih =>
    rw [stripFront]
    split
    · rename_i b hb
      have hmem : b ∈ blanks := List.mem_of_find?_eq_some hb
      have hpos : 0 < b.length := by
        rw [List.length_pos_iff]
        rintro rfl
        exact hblanks hmem
      apply ih
      rw [List.length_drop]
      omega
    · rename_i hnone
      intro b hb hpre
      have := List.find?_eq_none.mp hnone b hb
      simp [List.isPrefixOf_iff_prefix.mpr hpre] at this

theorem mem_spaces_of_isSpace {c : UInt8} (h : Decimal.isSpace c = true) : [c] ∈ spaces := by
  have hc : c = 32 ∨ c = 9 ∨ c = 10 ∨ c = 11 ∨ c = 12 ∨ c = 13 := by
    simp only [Decimal.isSpace, Bool.or_eq_true, decide_eq_true_eq, Bool.and_eq_true,
      UInt8.le_iff_toNat_le, ← UInt8.toNat_inj] at h ⊢
    simp only [UInt8.reduceToNat] at h ⊢
    omega
  rcases hc with rfl | rfl | rfl | rfl | rfl | rfl <;> decide

theorem not_isSpace_of_front (h : ∀ b ∈ spaces, ¬b <+: s) (hpos : 0 < s.length) :
    Decimal.isSpace s[0] = false := by
  rw [Bool.eq_false_iff]
  intro hspace
  apply h _ (mem_spaces_of_isSpace hspace)
  cases s with
  | nil => exact absurd hpos (lt_irrefl 0)
  | cons c cs => simp

/-- What `str.strip` leaves is not blank at either end for the engine. -/
theorem trimWs_strip (s : Str) : trimWs (strip s) = strip s := by
  have hfront : ∀ b ∈ spaces, ¬b <+: stripFront spaces s.length s :=
    stripFront_front (by decide) le_rfl
  simp only [strip]
  generalize stripFront spaces s.length s = r at hfront ⊢
  have hback : ∀ b ∈ spaces.map List.reverse,
      ¬b <+: stripFront (spaces.map List.reverse) r.length r.reverse :=
    stripFront_front (by decide) (by rw [List.length_reverse])
  have hsuf := stripFront_suffix (spaces.map List.reverse) r.length r.reverse
  generalize stripFront (spaces.map List.reverse) r.length r.reverse = e at hback hsuf ⊢
  have hpre : e.reverse <+: r := by
    rw [← List.reverse_reverse r]
    exact List.reverse_prefix.mpr hsuf
  apply Lines.trim_of_ends
  · intro hpos
    have hlen : 0 < r.length := hpos.trans_le hpre.length_le
    rw [hpre.getElem hpos]
    exact not_isSpace_of_front hfront hlen
  · intro hne
    rw [Bool.eq_false_iff]
    intro hspace
    rw [List.getLast_reverse] at hspace
    have hone := List.mem_map_of_mem (f := List.reverse) (mem_spaces_of_isSpace hspace)
    apply hback _ hone
    cases e with
    | nil => exact absurd rfl hne
    | cons c cs => simp

end Strip

section Table

variable {t : Keys} {key user token u : Str} {environ : Environment} {file : Option Str}

/-- Every key has a user, and every user is a text that the engine reads as it is. -/
structure Mapped (t : Keys) : Prop where
  mapped : ∀ k ∈ t.keys, t.keyToUser k ≠ none
  user : ∀ k u, t.keyToUser k = some u → u ≠ [] ∧ trimWs u = u

theorem mapped_empty : Mapped {} :=
  ⟨fun _ h => absurd h (Finset.notMem_empty _), fun _ _ h => by cases h⟩

theorem mapped_ingest (h : Mapped t) : Mapped (ingest t key user) := by
  simp only [ingest]
  split
  · exact h
  · rename_i hne
    obtain ⟨-, huser⟩ := not_or.mp hne
    refine ⟨fun k hk => ?_, fun k u hu => ?_⟩
    · dsimp only at hk ⊢
      by_cases heq : k = strip key
      · subst heq
        rw [Function.update_self]
        exact Option.some_ne_none _
      · rw [Function.update_of_ne heq]
        exact h.mapped k (Finset.mem_of_mem_insert_of_ne hk heq)
    · dsimp only at hu
      by_cases heq : k = strip key
      · subst heq
        rw [Function.update_self] at hu
        obtain rfl := Option.some.inj hu
        exact ⟨huser, trimWs_strip user⟩
      · rw [Function.update_of_ne heq] at hu
        exact h.user k u hu

theorem mapped_ingestLine (h : Mapped t) (line : Str) : Mapped (ingestLine t line) := by
  simp only [ingestLine]
  split
  · exact h
  · split
    · exact mapped_ingest h
    · exact mapped_ingest h
    · exact h

theorem mapped_ingestItem (h : Mapped t) (item : Str) : Mapped (ingestItem t item) := by
  simp only [ingestItem]
  split
  · exact h
  · split
    · exact mapped_ingest h
    · exact mapped_ingest h

theorem mapped_foldl {f : Keys → Str → Keys} (hf : ∀ t, Mapped t → ∀ s, Mapped (f t s))
    (h : Mapped t) (ss : List Str) : Mapped (ss.foldl f t) := by
  induction ss generalizing t with
  | nil => exact h
  | cons s ss ih => exact ih (hf t h s)

theorem mapped_loadApiKeys (file : Option Str) (environ : Environment) :
    Mapped (loadApiKeys file environ) := by
  have hfile : Mapped (file.elim {} fun content => (linesFrom [] content).foldl ingestLine {}) := by
    cases file with
    | none => exact mapped_empty
    | some content => exact mapped_foldl (fun _ => mapped_ingestLine) mapped_empty _
  simp only [loadApiKeys]
  generalize (file.elim {} fun content => (linesFrom [] content).foldl ingestLine {}) = t at hfile ⊢
  have hsingle : ∀ single user, Mapped (if single = [] then t else ingest t single user) := by
    intro single user
    split
    · exact hfile
    · exact mapped_ingest hfile
  split
  · exact hsingle _ _
  · exact mapped_foldl (fun _ => mapped_ingestItem) (hsingle _ _) _

theorem authenticateApiKey_ok (h : authenticateApiKey token t = .ok u) :
    t.keyToUser token = some u ∧ u ≠ [] := by
  unfold authenticateApiKey at h
  split at h
  · cases h
  · split at h
    · cases h
    · split at h
      · cases h
      · rename_i hne
        cases hu : t.keyToUser token with
        | none => simp [hu] at hne
        | some v =>
          simp only [hu, Option.getD_some, Except.ok.injEq] at h hne
          exact ⟨congrArg some h, h ▸ hne⟩

end Table

section Headers

variable {hs sent arrived visited : List (Str × Str)} {a : Str × Str} {name value : Str}

theorem mem_collectHeaders (h : a ∈ collectHeaders hs) : a ∈ hs := by
  have hfold : ∀ (hs out : List (Str × Str)),
      a ∈ hs.foldl (fun out h => Assoc.put out h.1 h.2) out → a ∈ out ∨ a ∈ hs := by
    intro hs
    induction hs with
    | nil => exact fun out ha => Or.inl ha
    | cons x hs ih =>
      intro out ha
      rcases ih _ ha with ha | ha
      · rcases Assoc.mem_put ha with rfl | ha
        · exact Or.inr List.mem_cons_self
        · exact Or.inl ha
      · exact Or.inr (List.mem_cons_of_mem _ ha)
  exact (hfold hs [] h).resolve_left List.not_mem_nil

theorem exists_collectHeaders (h : a ∈ hs) : ∃ v, (a.1, v) ∈ collectHeaders hs := by
  have hput : ∀ (out : List (Str × Str)) (x : Str × Str),
      (∃ v, Assoc.find out a.1 = some v) → ∃ v, Assoc.find (Assoc.put out x.1 x.2) a.1 = some v := by
    rintro out x ⟨v, hv⟩
    by_cases hx : a.1 = x.1
    · exact ⟨x.2, by rw [hx, Assoc.find_put_self]⟩
    · exact ⟨v, by rw [Assoc.find_put_of_ne hx, hv]⟩
  have hfold : ∀ (hs out : List (Str × Str)), (∃ v, Assoc.find out a.1 = some v) ∨ a ∈ hs →
      ∃ v, Assoc.find (hs.foldl (fun out h => Assoc.put out h.1 h.2) out) a.1 = some v := by
    intro hs
    induction hs with
    | nil => exact fun out ha => ha.resolve_right List.not_mem_nil
    | cons x hs ih =>
      intro out ha
      apply ih
      rcases ha with ha | ha
      · exact Or.inl (hput out x ha)
      · rcases List.mem_cons.mp ha with rfl | ha
        · exact Or.inl ⟨a.2, Assoc.find_put_self⟩
        · exact Or.inr ha
  obtain ⟨v, hv⟩ := hfold hs [] (Or.inr h)
  exact ⟨v, Assoc.mem_of_find hv⟩

/-- What the engine reads of a header that arrives, in whatever order it visits its map. -/
theorem headerGet_carried (hcarries : Carries sent arrived)
    (hvisit : visited.Perm (collectHeaders arrived)) (hsent : (name, value) ∈ sent) :
    headerGet visited name = value := by
  obtain ⟨a, ha, hname⟩ := hcarries.present _ hsent
  obtain ⟨v, hv⟩ := exists_collectHeaders ha
  rw [headerGet]
  cases hfind : visited.find? fun kv => lower kv.1 = lower name with
  | none =>
    have := List.find?_eq_none.mp hfind _ (hvisit.mem_iff.mpr hv)
    simp [hname] at this
  | some kv =>
    have hmem := mem_collectHeaders (hvisit.mem_iff.mp (List.mem_of_find?_eq_some hfind))
    have hkv : lower kv.1 = lower name := by simpa using List.find?_some hfind
    exact hcarries.unchanged _ hsent kv hmem hkv

end Headers

section Forwarded

variable {t : Keys} {arrived visited : List (Str × Str)} {internalApiKey u v : Str}
  {chatId : Option Str}

/-- The engine on the headers of a forwarded request. -/
theorem authenticate_upstream (hu : u ≠ []) (htrim : trimWs u = u)
    (hcarries : Carries (upstreamHeaders internalApiKey u chatId) arrived)
    (hvisit : visited.Perm (collectHeaders arrived)) :
    authenticate true t visited = .ok v ↔
      v = u ∧ internalApiKey ≠ [] ∧ trimWs internalApiKey ∈ t.keys ∧
        (t.keyToUser (trimWs internalApiKey) = none ∨
          t.keyToUser (trimWs internalApiKey) = some u) := by
  have hauth : headerGet visited (text "Authorization") = text "Bearer " ++ internalApiKey :=
    headerGet_carried hcarries hvisit (by simp [upstreamHeaders])
  have huser : headerGet visited (text "X-User-Id") = u :=
    headerGet_carried hcarries hvisit (by simp [upstreamHeaders])
  simp only [authenticate, hauth, huser, htrim, List.take_left, List.drop_left, List.length_append]
  by_cases hkeys : t.keys = ∅
  · simp [hkeys]
  · by_cases hkey : internalApiKey = []
    · simp [hkeys, hkey]
    · have hlen : ¬((text "Bearer ").length + internalApiKey.length ≤ (text "Bearer ").length ∨
          text "Bearer " ≠ text "Bearer ") := by
        have := List.length_pos_iff.mpr hkey
        simp only [ne_eq, not_true_eq_false, or_false]
        omega
      by_cases hmem : trimWs internalApiKey ∈ t.keys
      · simp only [if_neg hkeys, if_neg hlen, hmem, Server.keyUser]
        cases hm : t.keyToUser (trimWs internalApiKey) with
        | none => simp [hu, hkey, eq_comm, bind, Except.bind]
        | some m =>
          by_cases hum : u = m
          · subst hum
            simp [hu, hkey, eq_comm, bind, Except.bind]
          · simp [hu, hkey, hum, Ne.symm hum, bind, Except.bind]
      · simp [hkeys, hkey, hmem]

/-- The engine takes a request that the gateway forwards for no one but the user the gateway has
authenticated, and it takes it exactly when it knows the key of the gateway and has not given that
key to another user. -/
theorem forwarded_admitted (file : Option Str) (environ : Environment) (token : Str)
    (hclient : authenticateApiKey token (loadApiKeys file environ) = .ok u)
    (hcarries : Carries (upstreamHeaders internalApiKey u chatId) arrived)
    (hvisit : visited.Perm (collectHeaders arrived)) (t : Keys) (v : Str) :
    authenticate true t visited = .ok v ↔
      v = u ∧ internalApiKey ≠ [] ∧ trimWs internalApiKey ∈ t.keys ∧
        (t.keyToUser (trimWs internalApiKey) = none ∨
          t.keyToUser (trimWs internalApiKey) = some u) := by
  obtain ⟨hmapped, hne⟩ := authenticateApiKey_ok hclient
  have htrim := ((mapped_loadApiKeys file environ).user token u hmapped).2
  exact authenticate_upstream hne htrim hcarries hvisit

/-- A client key with its user, in a file of the gateway. -/
def clientFile : Str := text "# clients\nk1 alice\n"

/-- The headers of a request of alice as they arrive, after one of the HTTP client. -/
def aliceHeaders (internalApiKey : Str) : List (Str × Str) :=
  (text "Host", text "127.0.0.1") :: upstreamHeaders internalApiKey (text "alice") none

theorem aliceHeaders_carries {internalApiKey : Str} :
    Carries (upstreamHeaders internalApiKey (text "alice") none) (aliceHeaders internalApiKey) := by
  have hnames : ∀ h ∈ upstreamHeaders internalApiKey (text "alice") none,
      h.1 ∈ [text "Authorization", text "X-User-Id", text "Content-Type"] := by
    simp [upstreamHeaders]
  constructor
  · exact fun h hh => ⟨h, List.mem_cons_of_mem _ hh, rfl⟩
  · intro h hh a ha hname
    rcases List.mem_cons.mp ha with rfl | ha
    · have hhost : ∀ n ∈ [text "Authorization", text "X-User-Id", text "Content-Type"],
          lower (text "Host") ≠ lower n := by decide
      exact absurd hname (hhost _ (hnames h hh))
    · have hsame : ∀ h ∈ upstreamHeaders internalApiKey (text "alice") none,
          ∀ a ∈ upstreamHeaders internalApiKey (text "alice") none,
          lower a.1 = lower h.1 → a = h := by
        simp only [upstreamHeaders, List.append_nil, List.mem_cons, List.not_mem_nil, or_false]
        rintro h (rfl | rfl | rfl) a (rfl | rfl | rfl) hname <;> dsimp only at hname
        all_goals first | rfl | exact absurd hname (by decide)
      rw [hsame h hh a ha hname]

theorem clientFile_alice : authenticateApiKey (text "k1") (loadApiKeys (some clientFile) fun _ =>
    none) = .ok (text "alice") := by
  decide +kernel

theorem forwarded_admitted_alice :
    authenticate true { keys := {text "k"} } (collectHeaders (aliceHeaders (text "k"))) =
      .ok (text "alice") :=
  (forwarded_admitted (some clientFile) (fun _ => none) (text "k1") clientFile_alice
    aliceHeaders_carries (List.Perm.refl _) { keys := {text "k"} } (text "alice")).mpr
    ⟨rfl, by decide, by decide, Or.inl rfl⟩

/-- A preset key that is one word and no comment. -/
def Usable (key : Str) : Prop := key.any Decimal.isSpace = false ∧ key.head? ≠ some 35

theorem isSpace_hexDigit (n : UInt8) : Decimal.isSpace (hexDigit n) = false := by
  have hall : (0 :: text "0123456789abcdef").any Decimal.isSpace = false := by decide
  apply Server.KeyLine.word_all hall
  rw [hexDigit, List.getD_eq_getElem?_getD]
  cases hget : (text "0123456789abcdef")[n.toNat]? with
  | none => exact List.mem_cons_self
  | some c => exact List.mem_cons_of_mem _ (List.mem_of_getElem? hget)

theorem usable_setupKey {preset buf : Option Str} (hpreset : ∀ p, preset = some p → Usable p) :
    Usable (setupKey preset buf) ∧ setupKey preset buf ≠ [] := by
  unfold setupKey
  split
  · rename_i hne
    cases preset with
    | none => exact absurd rfl hne
    | some p => exact ⟨hpreset p rfl, hne⟩
  · cases buf with
    | none => exact ⟨⟨by decide, by decide⟩, by decide⟩
    | some buf =>
      have hpre : (text "cne_internal_").any Decimal.isSpace = false := by decide
      have hfirst : (text "cne_internal_").head? = some 99 := by decide
      have hhex : (buf.flatMap fun (b : UInt8) => [hexDigit (b >>> 4), hexDigit (b &&& 15)]).any
          Decimal.isSpace = false := by
        rw [List.any_flatMap, List.any_eq_false]
        simp [isSpace_hexDigit]
      refine ⟨⟨?_, ?_⟩, ?_⟩
      · rw [genInternalApiKey, List.any_append, hpre, hhex, Bool.or_false]
      · rw [genInternalApiKey, List.head?_append, hfirst]
        simp
      · exact List.append_ne_nil_of_left_ne_nil (by decide) _

/-- The lines of the key file of the setup program. -/
def setupLines (key : Str) : List Server.KeyLine :=
  [.comment [] setupRemark, .entry [] key [] [] []]

theorem setupKeyFile_eq (preset buf : Option Str) : setupKeyFile preset buf =
    Server.fileText (setupLines (setupKey preset buf)) (.blank []) := by
  simp [setupKeyFile, setupLines, Server.fileText, Server.KeyLine.render]

theorem wellFormed_setupLines {key : Str} (hkey : Usable key) (hne : key ≠ []) :
    ∀ l ∈ setupLines key, l.WellFormed := by
  obtain ⟨hword, hhash⟩ := hkey
  intro l hl
  rcases List.mem_cons.mp hl with rfl | hl
  · exact ⟨rfl, by decide⟩
  · rw [List.mem_singleton.mp hl]
    refine ⟨⟨rfl, rfl, rfl, hword, hne, hhash, rfl, fun h => absurd rfl h⟩, ?_⟩
    simp only [Server.KeyLine.render, List.nil_append, List.append_nil]
    intro h10
    have hspace := Server.KeyLine.word_all hword 10 h10
    revert hspace
    decide

/-- What the engine knows after it has loaded the key file of the setup program. -/
theorem keys_setup {preset buf : Option Str} {environ : Environment} {readFile : Str → Option Str}
    {path : Str} (hpreset : ∀ p, preset = some p → Usable p)
    (hsingle : Config.lookup environ (text "API_KEY") = none)
    (hcsv : Config.lookup environ (text "API_KEYS") = none)
    (hpath : Config.lookup environ (text "API_KEYS_FILE") = some path) (hne : path ≠ [])
    (hread : readFile path = some (setupKeyFile preset buf)) :
    (Server.mergeApiKeys environ readFile []).keys = {setupKey preset buf} ∧
      (Server.mergeApiKeys environ readFile []).keyToUser = fun _ => none := by
  obtain ⟨husable, hkey⟩ := usable_setupKey hpreset
  have hend : (Server.KeyLine.blank []).WellFormed := ⟨rfl, by decide⟩
  have hload : (Server.loadKeys environ readFile).1 =
      Server.Keys.ingest {} (setupKey preset buf) [] := by
    simp only [Server.loadKeys, Server.envKeys, hsingle, hcsv, hpath, Option.getD_some,
      Option.elim_none, if_pos hne, hread, setupKeyFile_eq]
    exact Server.foldl_fileText (wellFormed_setupLines husable hkey) hend {}
  rw [Server.mergeApiKeys, hload, Server.Keys.ingest, if_neg hkey]
  simp

/-- With the key file of the setup program the engine lets in who shows that key and nobody else,
and it takes every client of a gateway that has the key for who it is. -/
theorem setup_serves {preset buf : Option Str} {environ : Environment}
    {readFile : Str → Option Str} {path : Str} (hpreset : ∀ p, preset = some p → Usable p)
    (hsingle : Config.lookup environ (text "API_KEY") = none)
    (hcsv : Config.lookup environ (text "API_KEYS") = none)
    (hpath : Config.lookup environ (text "API_KEYS_FILE") = some path) (hne : path ≠ [])
    (hread : readFile path = some (setupKeyFile preset buf)) :
    (∀ headers v, authenticate true (Server.mergeApiKeys environ readFile []) headers = .ok v →
        ∃ w, headerGet headers (text "Authorization") = text "Bearer " ++ w ∧
          trimWs w = setupKey preset buf) ∧
      ∀ file clientEnviron token u chatId arrived visited,
        authenticateApiKey token (loadApiKeys file clientEnviron) = .ok u →
        Carries (upstreamHeaders (setupKey preset buf) u chatId) arrived →
        visited.Perm (collectHeaders arrived) →
        authenticate true (Server.mergeApiKeys environ readFile []) visited = .ok u := by
  obtain ⟨hkeys, husers⟩ := keys_setup hpreset hsingle hcsv hpath hne hread
  obtain ⟨⟨hword, -⟩, hkey⟩ := usable_setupKey hpreset
  constructor
  · intro headers v hv
    obtain ⟨w, hauth, hmem, -, -⟩ := Server.authenticate_ok hv
    rw [hkeys, Finset.mem_singleton] at hmem
    exact ⟨w, hauth, hmem⟩
  · intro file clientEnviron token u chatId arrived visited hclient hcarries hvisit
    obtain ⟨hmapped, hu⟩ := authenticateApiKey_ok hclient
    have htrim := ((mapped_loadApiKeys file clientEnviron).user token u hmapped).2
    have hsame : trimWs (setupKey preset buf) = setupKey preset buf :=
      Lines.trim_of_none (Server.KeyLine.word_all hword)
    apply (authenticate_upstream hu htrim hcarries hvisit).mpr
    rw [hsame, hkeys, husers]
    exact ⟨rfl, hkey, Finset.mem_singleton_self _, Or.inl rfl⟩

theorem setup_serves_alice :
    authenticate true
        (Server.mergeApiKeys Server.fileEnviron (fun _ => some (setupKeyFile none none)) [])
        (collectHeaders (aliceHeaders (setupKey none none))) = .ok (text "alice") :=
  have h := setup_serves (fun _ hp => by cases hp) (by decide) (by decide)
    (show Config.lookup Server.fileEnviron (text "API_KEYS_FILE") = some (text "keys.txt") by
      decide) (by decide) rfl
  h.2 (some clientFile) (fun _ => none) (text "k1") (text "alice") none _ _ clientFile_alice
    aliceHeaders_carries (List.Perm.refl _)

end Forwarded

end NotreEngine.Gateway
