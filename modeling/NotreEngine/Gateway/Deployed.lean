import NotreEngine.Config.Dialog

/-!
# A deployment

From the files that a run of the setup program leaves to the clients that the engine serves.
-/
namespace NotreEngine.Gateway

open Gguf (text)
open Config
open Server (authenticate collectHeaders headerGet noKeys trimWs)

variable {F : Type} {D : Doubles F} {S : Started} {resolve : Str → Str} {values : Values}
  {model name : Str} {files : Str → Option (Content F)}

theorem lookup_written_of_ne (hknob : ∀ kn ∈ configKnobs, kn.envName ≠ name)
    (hkeys : name ≠ keysFileName) :
    lookup (fileEnviron D resolve values model) name = none := by
  have hcne : (applyConfigFile D.dump resolve (written D values model) nothingSet).environ
      (cneName name) = none := by
    simp only [applyConfigFile]
    rw [applyKeysFile_of_ne fun heq => hkeys (cneName_injective heq),
      applyKnob_writesOwn.foldl_of_notMem]
    · rfl
    · intro hmem
      obtain ⟨kn, hkn, heq⟩ := List.mem_map.mp hmem
      exact hknob kn hkn (cneName_injective heq)
  rw [lookup, fileEnviron, hcne, applyConfigFile_soeName]
  rfl

/-- The written file names no keys itself. -/
theorem apiKeysOf_written : apiKeysOf (written D values model) = [] := by
  have hfree : text "api_keys" ∉ Key.all.map Key.name := by decide
  have hnone : written D values model (text "api_keys") = none := by
    simp only [written]
    rw [pairPMin_of_ne (by decide), bumpSessions_of_ne (by decide),
      writeItem_writesOwn.foldl_of_notMem hfree]
    rfl
  rw [apiKeysOf, hnone]

/-- In API mode the file starts an engine with the API mode on and two lanes or more. -/
theorem settings_api (hapi : apiOn values = true) :
    (settings D (fileEnviron D resolve values model)).apiEnabled = true ∧
      2 ≤ (settings D (fileEnviron D resolve values model)).nSeqMax := by
  simp only [settings]
  rw [lookup_fileEnviron .apiMode rfl, fileText_apiMode, if_pos hapi,
    lookup_fileEnviron .sessionMax rfl, fileText_sessionMax]
  refine ⟨by decide, ?_⟩
  by_cases hbump : apiOn values = true ∧ Decimal.atoi (values .sessionMax) < 2
  · rw [if_pos hbump]
    decide
  · have htwo : 2 ≤ Decimal.atoi (values .sessionMax) := by
      by_contra hless
      exact hbump ⟨hapi, by omega⟩
    have hne : values .sessionMax ≠ [] := by
      intro hnil
      rw [hnil] at htwo
      revert htwo
      decide
    rw [if_neg hbump, if_neg hne, Option.elim_some, Decimal.atoi_spell_atoi]
    split <;> omega

/-- In API mode a run that ends with 0 leaves a new key file with the internal key. -/
theorem writeFiles_keys (hapi : apiOn values = true)
    (hfresh : files (S.inModels (apiKeysRel values)) = none)
    (hother : S.inModels (apiKeysRel values) ≠ S.configPath)
    (hzero : (writeFiles D S values files).1 = 0) :
    (writeFiles D S values files).2 (S.inModels (apiKeysRel values)) =
      some (.bytes (setupKeyFile S.internalKey S.random)) := by
  unfold writeFiles at hzero ⊢
  split at hzero
  · cases hzero
  · rename_i files' hkeys
    have hwritten : files' (S.inModels (apiKeysRel values)) =
        some (.bytes (setupKeyFile S.internalKey S.random)) := by
      have hon : ¬(!apiOn values) = true := by simp [hapi]
      have hnone : ¬(files (S.inModels (apiKeysRel values))).isSome = true := by simp [hfresh]
      rw [writeKeys, if_neg hon] at hkeys
      dsimp only at hkeys
      rw [if_neg hnone] at hkeys
      split at hkeys
      · cases hkeys
      · rw [← Option.some.inj hkeys]
        exact Function.update_self _ _ _
    split at hzero
    · cases hzero
    · rename_i hcreates
      rw [if_neg hcreates]
      split at hzero
      · cases hzero
      · exact (Function.update_of_ne hother _ _).trans hwritten

/-- A run that ends with 0 was agreed to, and dumped its configuration. -/
theorem setup_zero {suggested : Values} {lines rest : List Str}
    (hok : confirmAll D S Key.all suggested lines = .ok (values, rest))
    (hzero : (setup D S suggested lines files).1 = 0) :
    setup D S suggested lines files = writeFiles D S values files ∧
      dumps (written D values S.artifact.relative) = true := by
  have hwritten : setup D S suggested lines files = writeFiles D S values files := by
    simp only [setup, hok] at hzero ⊢
    split at hzero
    · cases hzero
    · rename_i hagreed
      exact if_neg hagreed
  refine ⟨hwritten, ?_⟩
  rw [hwritten] at hzero
  rcases writeFiles_cases D S values files with ⟨hcode, -⟩ | ⟨hcode, -⟩ | ⟨-, hdumps, -⟩
  · rw [hcode] at hzero
    cases hzero
  · rw [hcode] at hzero
    cases hzero
  · exact hdumps

/-- With one key that has no user, who shows that key is the user the request names. -/
theorem authenticate_single {t : Server.Keys} {key u : Str} {headers : List (Str × Str)}
    (hkeys : t.keys = {key}) (husers : t.keyToUser = fun _ => none) (hne : key ≠ []) :
    authenticate true t headers = .ok u ↔
      (∃ w, headerGet headers (text "Authorization") = text "Bearer " ++ w ∧ trimWs w = key) ∧
        u = trimWs (headerGet headers (text "X-User-Id")) ∧ u ≠ [] := by
  constructor
  · intro h
    obtain ⟨w, hauth, hmem, hu, huser⟩ := Server.authenticate_ok h
    rw [hkeys, Finset.mem_singleton] at hmem
    rw [husers] at huser
    rcases huser with hmapped | ⟨-, heq⟩
    · cases hmapped
    · exact ⟨⟨w, hauth, hmem⟩, heq, hu⟩
  · rintro ⟨⟨w, hauth, htrim⟩, rfl, hu⟩
    have hw : w ≠ [] := by
      rintro rfl
      exact hne htrim.symm
    have hsome : t.keys ≠ ∅ := by
      rw [hkeys]
      exact Finset.singleton_ne_empty key
    have hlen : ¬((text "Bearer ").length + w.length ≤ (text "Bearer ").length ∨
        text "Bearer " ≠ text "Bearer ") := by
      have := List.length_pos_iff.mpr hw
      simp only [ne_eq, not_true_eq_false, or_false]
      omega
    have hmem : trimWs w ∈ t.keys := by
      rw [hkeys, htrim]
      exact Finset.mem_singleton_self key
    simp only [authenticate, not_true_eq_false, if_false, if_neg hsome, hauth, List.take_left,
      List.length_append, if_neg hlen, List.drop_left, hmem, Server.keyUser, husers]
    exact if_neg hu

/-- What a run of the setup program in API mode leaves starts an engine in API mode, with two lanes
or more. A preset internal key is one word that is no comment, and the configuration lies where the
server finds the key file in the models directory, and is another file. Where the name of the key
file was kept, the engine knows the new internal key alone: it serves exactly the requests that show
it, each as the user it names. Where the name was cleared, the file with the key is written all the
same but the engine refuses every request. -/
theorem setup_deploys (D : Doubles F) (S : Started) (hwThreads : Nat) (regime : Memory.Regime)
    (kv : Memory.ServingKvEstimate) (values : Values) (lines rest : List Str)
    (files : Str → Option (Content F)) (resolve : Str → Str) (readFile : Str → Option Str)
    (hok : confirmAll D S Key.all (suggestions S.artifact.path hwThreads regime kv) lines =
      .ok (values, rest))
    (hzero : (setup D S (suggestions S.artifact.path hwThreads regime kv) lines files).1 = 0)
    (hread : ∀ path s, (setup D S (suggestions S.artifact.path hwThreads regime kv) lines files).2
      path = some (.bytes s) → readFile path = some s)
    (hapi : apiOn values = true)
    (hfresh : files (S.inModels (apiKeysRel values)) = none)
    (hother : S.inModels (apiKeysRel values) ≠ S.configPath)
    (hresolve : ∀ rel ≠ [], resolve rel = S.inModels rel)
    (hpreset : ∀ p, S.internalKey = some p → Usable p) :
    (∃ engine, bootFile D resolve S.artifact values S.configPath = some engine ∧
        engine.settings.apiEnabled = true ∧ 2 ≤ engine.settings.nSeqMax) ∧
      let applied := applyConfigFile D.dump resolve (written D values S.artifact.relative) nothingSet
      let keys := Server.mergeApiKeys applied.environ readFile applied.apiKeys
      (values .apiKeysFile ≠ [] → ∀ headers u, authenticate true keys headers = .ok u ↔
          (∃ w, headerGet headers (text "Authorization") = text "Bearer " ++ w ∧
            trimWs w = setupKey S.internalKey S.random) ∧
            u = trimWs (headerGet headers (text "X-User-Id")) ∧ u ≠ []) ∧
        (values .apiKeysFile = [] → ∀ headers, authenticate true keys headers = .error noKeys) := by
  obtain ⟨-, hvalues⟩ := confirmAll_ok keys_nodup hok
  have hport : validValue D .port (values .port) = true := by
    obtain ⟨-, hsame | hvalid⟩ := hvalues .port (by decide)
    · rw [hsame]
      rfl
    · exact hvalid
  have happlied : (applyConfigFile D.dump resolve (written D values S.artifact.relative)
      nothingSet).apiKeys = [] := apiKeysOf_written
  have hsingle : lookup (fileEnviron D resolve values S.artifact.relative) (text "API_KEY") =
      none := lookup_written_of_ne (by decide) (by decide)
  have hcsv : lookup (fileEnviron D resolve values S.artifact.relative) (text "API_KEYS") =
      none := lookup_written_of_ne (by decide) (by decide)
  have hfile : lookup (fileEnviron D resolve values S.artifact.relative) (text "API_KEYS_FILE") =
      fileKeys resolve values := lookup_fileEnviron_keysFile
  obtain ⟨hwrites, hdumps⟩ := setup_zero hok hzero
  refine ⟨⟨_, (bootFile_eq S.artifact S.configPath hport).trans (if_pos hdumps),
    settings_api hapi⟩, ?_⟩
  intro applied keys
  rw [show keys = Server.mergeApiKeys applied.environ readFile [] by rw [← happlied]]
  refine ⟨?_, ?_⟩
  · intro hname headers u
    have hrel : apiKeysRel values = values .apiKeysFile := by simp [apiKeysRel, hname]
    have hkeys : readFile (S.inModels (apiKeysRel values)) =
        some (setupKeyFile S.internalKey S.random) := by
      apply hread
      rw [hwrites] at hzero ⊢
      exact writeFiles_keys hapi hfresh hother hzero
    have hnamed : fileKeys resolve values = some (S.inModels (apiKeysRel values)) := by
      rw [fileKeys, if_pos ⟨hapi, hname⟩, hresolve _ hname, hrel]
    obtain ⟨hone, husers⟩ := keys_setup hpreset hsingle hcsv (hfile.trans hnamed)
      (S.inModels_ne _) hkeys
    exact authenticate_single hone husers (usable_setupKey hpreset).2
  · intro hcleared headers
    have hnone : fileKeys resolve values = none := by simp [fileKeys, hcleared]
    have hempty : (Server.mergeApiKeys applied.environ readFile []).keys = ∅ := by
      have henviron : applied.environ = fileEnviron D resolve values S.artifact.relative := rfl
      simp [Server.mergeApiKeys, Server.loadKeys, Server.envKeys, henviron, hsingle, hcsv, hfile,
        hnone]
    simp [authenticate, hempty]

/-- The sizing of the run below, with two lanes. -/
def twoLanes : Memory.ServingKvEstimate := { nCtx := 4096, nSeqMax := 2, nCtxPerSeq := 2048 }

def keptValues : Values := suggestions someArtifact.path 16 .r2AboveRam twoLanes

/-- The files after a run that keeps all suggestions. -/
def keptFiles : Str → Option (Content Bool) :=
  (setup halves (unattended someArtifact) keptValues [] fun _ => none).2

def readKept (path : Str) : Option Str :=
  match keptFiles path with
  | some (.bytes s) => some s
  | _ => none

theorem readKept_bytes (path s : Str) (h : keptFiles path = some (.bytes s)) :
    readKept path = some s := by
  rw [readKept, h]

/-- Kept as it is suggested, and without random bytes. -/
theorem setup_deploys_kept :
    let applied := applyConfigFile halves.dump (unattended someArtifact).inModels
      (written halves keptValues someArtifact.relative) nothingSet
    authenticate true (Server.mergeApiKeys applied.environ readKept applied.apiKeys)
      [(text "Authorization", text "Bearer change-me-in-production"),
        (text "X-User-Id", text "alice")] = .ok (text "alice") := by
  have hzero : (setup halves (unattended someArtifact) keptValues [] fun _ => none).1 = 0 := by
    rw [setup_unattended]
    apply writeFiles_zero (fun _ => rfl)
    rw [dumps_written]
    exact ⟨by decide, by decide, by decide, fun _ => by decide⟩
  have h := setup_deploys halves (unattended someArtifact) 16 .r2AboveRam twoLanes keptValues [] []
    (fun _ => none) (unattended someArtifact).inModels readKept (confirmAll_unattended _ _) hzero
    readKept_bytes (by decide) rfl (by decide) (fun _ _ => rfl) (fun _ hp => by cases hp)
  apply (h.2.1 (by decide) _ _).mpr
  refine ⟨⟨text "change-me-in-production", by decide, by decide⟩, by decide, by decide⟩

end NotreEngine.Gateway
