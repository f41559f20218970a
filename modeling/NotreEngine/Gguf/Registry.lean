import NotreEngine.Gguf.Model

/-!
# The manifest of an accepted file
-/
namespace NotreEngine.Gguf

theorem bind_ok {ε α β : Type} {x : Except ε α} {f : α → Except ε β} {b : β}
    (h : (x >>= f) = .ok b) : ∃ a, x = .ok a ∧ f a = .ok b := by
  cases x with
  | error e => cases h
  | ok a => exact ⟨a, rfl, h⟩

variable {r : GgufReader} {fileSize : UInt64} {m m' : ModelManifest} {ts : List RawTensor}
  {arch : Str} {nExperts : Int32} {rt : RawTensor} {next : Option RawTensor} {ti : TensorInfo}

/-- A routed tensor has experts and a span, which is divided among them. -/
theorem tensorInfo_routed (h : tensorInfo r fileSize arch nExperts rt next = .ok ti)
    (hkind : classifyTensor arch rt.name = .routedExpert) :
    0 < nExperts ∧ spanTo r fileSize rt next ≠ 0 ∧
      ti.bytesPerExpert = spanTo r fileSize rt next / toWord nExperts ∧
      ti.expertCount = nExperts := by
  simp only [tensorInfo, if_pos hkind] at h
  split at h
  · cases h
  · rename_i hpos
    split at h
    · cases h
    · split at h
      · cases h
      · rename_i hspan
        cases h
        exact ⟨Int32.not_le.mp hpos, hspan, rfl, rfl⟩

theorem countTensor_spec (m : ModelManifest) (ti : TensorInfo) :
    (countTensor m ti).tensors = m.tensors ++ [ti] ∧
      (countTensor m ti).architecture = m.architecture ∧
      (countTensor m ti).nExperts = m.nExperts := by
  cases hkind : ti.kind <;> simp only [countTensor, hkind] <;> grind

/-- Every tensor gets its entry, in the order of the scan. -/
theorem scanTensors_ok (h : scanTensors r fileSize ts m = .ok m') :
    m'.architecture = m.architecture ∧ m'.nExperts = m.nExperts ∧
      ∃ tis, m'.tensors = m.tensors ++ tis ∧ ∀ i rt, ts[i]? = some rt →
        ∃ ti, tis[i]? = some ti ∧
          tensorInfo r fileSize m.architecture m.nExperts rt ts[i + 1]? = .ok ti := by
  induction ts generalizing m with
  | nil =>
    cases h
    exact ⟨rfl, rfl, [], by simp, by simp⟩
  | cons t ts ih =>
    obtain ⟨ti, hti, hrest⟩ := bind_ok h
    obtain ⟨htensors, harch, hexperts⟩ := countTensor_spec m ti
    obtain ⟨harch', hexperts', tis, htis, hall⟩ := ih hrest
    rw [harch, hexperts] at hall
    refine ⟨harch'.trans harch, hexperts'.trans hexperts, ti :: tis, ?_, ?_⟩
    · rw [htis, htensors, List.append_assoc, List.singleton_append]
    · intro i rt hrt
      cases i with
      | zero =>
        cases hrt
        exact ⟨ti, rfl, by rwa [List.getElem?_cons_succ, ← List.head?_eq_getElem?]⟩
      | succ i => exact hall i rt hrt

/-- The manifest takes its architecture and its experts from the metadata, and has an entry for
each of the sorted tensors. -/
theorem build_ok (h : build fileSize (.ok r) = .ok m) :
    ∃ experts, r.kvStr (text "general.architecture") = some m.architecture ∧
      expertConfig r m.architecture = .ok experts ∧
      m.nExperts = (experts.map Prod.fst).getD 0 ∧
      ∀ i rt, (sortByOffset r.tensors)[i]? = some rt → ∃ ti, m.tensors[i]? = some ti ∧
        tensorInfo r fileSize m.architecture m.nExperts rt
          (sortByOffset r.tensors)[i + 1]? = .ok ti := by
  obtain ⟨arch, harch, h⟩ := bind_ok h
  obtain ⟨blocks, _, h⟩ := bind_ok h
  obtain ⟨experts, hconfig, h⟩ := bind_ok h
  obtain ⟨m', hscan, h⟩ := bind_ok h
  obtain ⟨_, _, h⟩ := bind_ok h
  split at h
  · cases h
  · cases h
    obtain ⟨harch', hexperts, tis, htis, hall⟩ := scanTensors_ok hscan
    rw [harch', hexperts, htis]
    refine ⟨experts, ?_, hconfig, rfl, hall⟩
    cases hkv : r.kvStr (text "general.architecture") with
    | none =>
      rw [hkv] at harch
      cases harch
    | some a =>
      rw [hkv] at harch
      cases harch
      rfl

/-- The span of the last tensor runs to the end of the file. -/
theorem toNat_spanTo_none
    (h : r.dataOffset.toNat + rt.relOffset.toNat ≤ fileSize.toNat) :
    (spanTo r fileSize rt none).toNat =
      fileSize.toNat - (r.dataOffset.toNat + rt.relOffset.toNat) := by
  have hlt := fileSize.toNat_lt
  have habs : (r.dataOffset + rt.relOffset).toNat = r.dataOffset.toNat + rt.relOffset.toNat := by
    rw [UInt64.toNat_add, Nat.mod_eq_of_lt (by omega)]
  have hle : r.dataOffset + rt.relOffset ≤ fileSize := by
    rw [UInt64.le_iff_toNat_le]
    omega
  rw [spanTo, UInt64.toNat_sub_of_le _ _ hle, habs]

theorem toNat_toWord {k : Int32} (h : 0 < k) : (toWord k).toNat = k.toNatClampNeg := by
  have hle : 0 ≤ k.toInt64 := by
    rw [Int64.le_iff_toInt_le, Int32.toInt_toInt64]
    exact (Int32.lt_iff_toInt_lt.mp h).le
  rw [toWord, Int64.toNat_toUInt64_of_le hle, Int32.toNatClampNeg_toInt64]

end NotreEngine.Gguf
