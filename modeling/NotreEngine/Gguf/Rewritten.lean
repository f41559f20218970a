import NotreEngine.Gguf.Rewrite
import NotreEngine.Gguf.Slices
import NotreEngine.Gguf.Wire

/-!
# What the rewrite of a model file does

The patches of the metadata as edits of the parsed items, and the copied data.
-/
namespace NotreEngine.Gguf

open FileReader LittleEndian

section Entries

variable {key : Str} {m m' : Kvs} {p : UInt64}

/-- A position is recorded for a scalar, where its bytes begin. -/
theorem WireKv.pos_store {kv : WireKv} {pos : Nat} (h : (kv.store pos m).pos key = some p) :
    m.pos key = some p ∨ ∃ ty bs, kv = ⟨key, .scalar ty bs⟩ ∧
      p = UInt64.ofNat (pos + kv.header.length) := by
  obtain ⟨k, v⟩ := kv
  by_cases hk : k = key
  · subst hk
    cases v with
    | string s => exact Or.inl h
    | array bs => exact Or.inl h
    | scalar ty bs =>
      cases ty <;>
        first
        | exact Or.inl h
        | (right
           refine ⟨_, bs, rfl, ?_⟩
           simpa [WireKv.store, WireValue.store, Kvs.set, eq_comm] using h)
  · left
    cases v with
    | string s => exact h
    | array bs => exact h
    | scalar ty bs =>
      cases ty <;> simpa [WireKv.store, WireValue.store, Kvs.set,
        Function.update_of_ne (Ne.symm hk)] using h

theorem pos_storeAll {kvs : List WireKv} {pos : Nat}
    (h : (storeAll WireKv.spell WireKv.store pos kvs m).pos key = some p) :
    m.pos key = some p ∨ ∃ pre ty bs post, kvs = pre ++ ⟨key, .scalar ty bs⟩ :: post ∧
      p = UInt64.ofNat (pos + (pre.flatMap WireKv.spell).length +
        (WireKv.header ⟨key, .scalar ty bs⟩).length) := by
  induction kvs generalizing pos m with
  | nil => exact Or.inl h
  | cons kv kvs ih =>
    rcases ih h with hstore | ⟨pre, ty, bs, post, rfl, rfl⟩
    · rcases WireKv.pos_store hstore with hm | ⟨ty, bs, rfl, rfl⟩
      · exact Or.inl hm
      · exact Or.inr ⟨[], ty, bs, kvs, rfl, rfl⟩
    · refine Or.inr ⟨kv :: pre, ty, bs, post, rfl, ?_⟩
      rw [List.flatMap_cons, List.length_append, Nat.add_assoc pos]

/-- Entries do not depend on positions. -/
theorem WireKv.entry_store_congr (kv : WireKv) (pos pos' : Nat)
    (h : m.entry key = m'.entry key) :
    (kv.store pos m).entry key = (kv.store pos' m').entry key := by
  by_cases hk : kv.key = key
  · obtain ⟨k, v⟩ := kv
    subst hk
    simp only [Kvs.entry, Prod.mk.injEq] at h ⊢
    obtain ⟨hu, hi, hf, hs⟩ := h
    cases v with
    | string s => simp [WireKv.store, WireValue.store, hu, hi, hf]
    | array bs => simp [WireKv.store, WireValue.store, hu, hi, hf, hs]
    | scalar ty bs =>
      cases ty <;> simp [WireKv.store, WireValue.store, Kvs.set, hu, hi, hf, hs]
  · rw [WireKv.entry_store_of_ne pos hk, WireKv.entry_store_of_ne pos' hk, h]

theorem entry_storeAll_congr (kvs : List WireKv) (pos pos' : Nat)
    (h : m.entry key = m'.entry key) :
    (storeAll WireKv.spell WireKv.store pos kvs m).entry key =
      (storeAll WireKv.spell WireKv.store pos' kvs m').entry key := by
  induction kvs generalizing pos pos' m m' with
  | nil => exact h
  | cons kv kvs ih => exact ih _ _ (kv.entry_store_congr pos pos' h)

end Entries

section Copy

variable {rd : GgufReader} {file out out' : List UInt8} {fileSize ndo c : UInt64}
  {ts : List RawTensor}

/-- The chunks make up one write. -/
theorem copyChunks_ok {src dst left : Nat} (h : copyChunks file src dst left out = some out')
    (hout : out.length ≤ dst) :
    out' = Buffer.write 0 dst ((file.drop src).take left) out ∧
      (left = 0 ∨ src + left ≤ file.length ∧ dst + left < maxOffset) := by
  induction left using Nat.strong_induction_on generalizing src dst out with
  | _ left ih =>
    rw [copyChunks] at h
    split at h
    · rename_i hzero
      cases h
      rw [hzero, List.take_zero]
      exact ⟨rfl, Or.inl rfl⟩
    · rename_i hleft
      simp only at h
      split at h
      · cases h
      · rename_i hroom
        have hcopy : 0 < kCopyBytes := by decide
        generalize hchunk : min left kCopyBytes = chunk at h hroom
        have hlen : ((file.drop src).take chunk).length = chunk := by
          rw [List.length_take, List.length_drop]
          omega
        have hne : (file.drop src).take chunk ≠ [] := by
          intro hnil
          rw [hnil, List.length_nil] at hlen
          omega
        have hwritten := (Buffer.length_write_le 0 ((file.drop src).take chunk)
          hout).trans_eq (congrArg (dst + ·) hlen)
        obtain ⟨rfl, hrest⟩ := ih (left - chunk) (by omega) h hwritten
        refine ⟨?_, Or.inr (by omega)⟩
        have hwhole : (file.drop src).take left =
            (file.drop src).take chunk ++ (file.drop (src + chunk)).take (left - chunk) := by
          rw [← List.drop_drop, ← List.take_add, Nat.add_sub_cancel' (by omega)]
        have htwo := Buffer.write_write 0
          ((file.drop (src + chunk)).take (left - chunk)) hout hne
        rw [hlen] at htwo
        rw [htwo, hwhole]

theorem copyChunks_of_le {src dst left : Nat} (hleft : left ≤ kCopyBytes)
    (hsrc : src + left ≤ file.length) (hdst : dst + left < maxOffset) :
    copyChunks file src dst left out =
      some (Buffer.write 0 dst ((file.drop src).take left) out) := by
  rw [copyChunks]
  split
  · rename_i hzero
    rw [hzero, List.take_zero, Buffer.write_nil]
  · rw [Nat.min_eq_left hleft]
    simp only
    rw [if_neg (by omega), Nat.sub_self, copyChunks, if_pos rfl]

/-- The file only grows, and the bytes of every span are found at its new place. -/
theorem copyData_ok (h : copyData rd file ndo (repack rd fileSize c ts).1 out = .ok out')
    (hroom : ndo.toNat + c.toNat < 2 ^ 64)
    (hout : out.length ≤ ndo.toNat + c.toNat) (hlen : out.length < maxOffset) :
    out <+: out' ∧ out'.length < maxOffset ∧ ∀ k ∈ (repack rd fileSize c ts).1,
      isOffset (ndo + k.newRel) ∧ k.span.toNat < maxOffset ∧
        ∃ bs : List UInt8, bs.length = k.span.toNat ∧
          bs <+: file.drop (rd.dataOffset + k.tensor.relOffset).toNat ∧
          bs <+: out'.drop (ndo + k.newRel).toNat := by
  induction ts generalizing c out with
  | nil =>
    cases h
    exact ⟨List.prefix_rfl, hlen, by simp [repack]⟩
  | cons t ts ih =>
    simp only [repack, copyData] at h ⊢
    split at h
    · cases h
    · rename_i hseek
      have hdst : isOffset (ndo + c) = true := by_contra fun hn => hseek (Or.inl hn)
      split at h
      · cases h
      · rename_i mid hchunks
        generalize hspan : spanTo rd fileSize t ts.head? = span at h hchunks ⊢
        have hsum : (ndo + c).toNat = ndo.toNat + c.toNat := by
          rw [UInt64.toNat_add, Nat.mod_eq_of_lt hroom]
        obtain ⟨rfl, hread⟩ := copyChunks_ok hchunks (hsum ▸ hout)
        have hmax : maxOffset = 2 ^ 63 := rfl
        have hs : span.toNat < maxOffset := by omega
        obtain ⟨_, hhere, hnext, hroom'⟩ := toNat_cursor (s := span) (by omega) hroom hdst
        have htaken : ((file.drop (rd.dataOffset + t.relOffset).toNat).take span.toNat).length =
            span.toNat := by
          rw [List.length_take, List.length_drop]
          omega
        have hgrow := Buffer.length_write_le 0
          ((file.drop (rd.dataOffset + t.relOffset).toNat).take span.toNat) (hsum ▸ hout)
        rw [htaken] at hgrow
        have hup := Packing.le_alignUp (v := span.toNat) (a := 4096) (by decide)
        have hbound : (Buffer.write 0 (ndo + c).toNat
            ((file.drop (rd.dataOffset + t.relOffset).toNat).take span.toNat) out).length <
              maxOffset := by
          rcases hread with hzero | ⟨_, hlt⟩
          · rw [hzero, List.take_zero, Buffer.write_nil]
            exact hlen
          · omega
        obtain ⟨hpre, hend, hall⟩ := ih h hroom' (by omega) hbound
        refine ⟨(Buffer.prefix_write (hsum ▸ hout)).trans hpre, hend,
          List.forall_mem_cons.mpr ⟨⟨hdst, hs, _, htaken, List.take_prefix _ _, ?_⟩, hall⟩⟩
        exact Buffer.prefix_drop_of_prefix (Buffer.prefix_drop_write 0 _ (hsum ▸ hout)) hpre

end Copy

section Metadata

variable {rd : GgufReader} {w : WireFile} {ts : List WireTensor} {ks : List Move}

/-- The file with other key-values. -/
def WireFile.withKvs (w : WireFile) (kvs : List WireKv) : WireFile := { w with kvs := kvs }

def WireTensor.retarget (t : WireTensor) (rel : UInt64) : WireTensor := { t with relOffset := rel }

/-- The file with other offsets of its tensors. -/
def WireFile.retarget (w : WireFile) (rels : List UInt64) : WireFile :=
  { w with tensors := List.zipWith WireTensor.retarget w.tensors rels }

def alignmentItem : WireKv := ⟨alignmentKey, .scalar .uint32 (bytes 4 kAlign.toNat)⟩

theorem spell_alignmentItem : alignmentItem.spell = alignmentKv := rfl

theorem spell_retarget (t : WireTensor) (rel : UInt64) :
    (t.retarget rel).spell = t.header ++ bytes 8 rel.toNat := rfl

/-- Every offset field is patched where the parse has found it. -/
theorem patchOffsets_spell {pos shift : Nat} (start : List UInt8)
    (hks : ks.map Move.tensor = located WireTensor.spell (fun pos t => t.raw pos) pos ts)
    (hshift : shift = (kvShift rd).toNat) (hstart : start.length = pos + shift)
    (hkv : rd.kvEnd.toNat ≤ pos) (hfit : (start ++ ts.flatMap WireTensor.spell).length < 2 ^ 64) :
    patchOffsets rd ks (start ++ ts.flatMap WireTensor.spell) =
      some (start ++ (List.zipWith WireTensor.retarget ts (ks.map Move.newRel)).flatMap
        WireTensor.spell) := by
  induction ts generalizing ks pos start with
  | nil =>
    obtain rfl := List.map_eq_nil_iff.mp hks
    rfl
  | cons t ts ih =>
    cases ks with
    | nil => cases hks
    | cons k ks =>
      rw [List.map_cons, located, List.cons.injEq] at hks
      obtain ⟨htensor, hks⟩ := hks
      simp only [List.flatMap_cons, WireTensor.spell, List.length_append, length_bytes] at hfit
      have hfield : k.tensor.offsetFieldPos = UInt64.ofNat (pos + t.header.length) := by
        rw [htensor]
        rfl
      have hword : (UInt64.ofNat (pos + t.header.length)).toNat = pos + t.header.length :=
        toNat_ofNat_dword (by omega)
      have hpos : (k.tensor.offsetFieldPos + kvShift rd).toNat =
          (start ++ t.header).length := by
        rw [hfield, UInt64.toNat_add, hword, ← hshift, List.length_append, hstart,
          Nat.mod_eq_of_lt (by omega)]
        omega
      have hbehind : rd.kvEnd ≤ k.tensor.offsetFieldPos := by
        rw [hfield, UInt64.le_iff_toNat_le, hword]
        omega
      have hold : start ++ (t :: ts).flatMap WireTensor.spell = (start ++ t.header) ++
          (bytes 8 t.relOffset.toNat ++ ts.flatMap WireTensor.spell) := by
        simp only [List.flatMap_cons, WireTensor.spell, List.append_assoc]
      have hcopy := Buffer.overwrite_of_length_eq (start ++ t.header) (bytes 8 k.newRel.toNat)
        (bytes 8 t.relOffset.toNat) (ts.flatMap WireTensor.spell)
        ((length_bytes 8 _).trans (length_bytes 8 _).symm)
      have hnew : (start ++ t.header) ++ (bytes 8 k.newRel.toNat ++ ts.flatMap WireTensor.spell) =
          (start ++ (t.retarget k.newRel).spell) ++ ts.flatMap WireTensor.spell := by
        simp only [spell_retarget, List.append_assoc]
      have hspell : t.spell.length = t.header.length + 8 := by
        rw [WireTensor.spell, List.length_append, length_bytes]
      have hlen : (t.retarget k.newRel).spell.length = t.spell.length := by
        rw [spell_retarget, List.length_append, length_bytes, hspell]
      have hrest := ih
        (start ++ (t.retarget k.newRel).spell) hks
        (by rw [List.length_append, hlen, hstart]; omega) (by omega)
        (by simp only [List.length_append, hlen]; omega)
      simp only [patchOffsets, hbehind, decide_true, Bool.or_true, if_true, hpos, hold, hcopy,
        Option.bind_eq_bind, Option.bind_some, hnew, hrest]
      simp only [List.map_cons, List.zipWith_cons_cons, List.flatMap_cons, List.append_assoc]

theorem length_patchOffsets {metadata metadata' : List UInt8}
    (h : patchOffsets rd ks metadata = some metadata') : metadata'.length = metadata.length := by
  induction ks generalizing metadata with
  | nil =>
    cases h
    rfl
  | cons k ks ih =>
    obtain ⟨mid, hmid, h⟩ := Option.bind_eq_some_iff.mp h
    exact (ih h).trans (Buffer.length_overwrite hmid)

theorem length_patchAlignment {metadata metadata' : List UInt8}
    (h : patchAlignment rd metadata = some metadata') :
    metadata'.length ≤ metadata.length + 33 := by
  unfold patchAlignment at h
  split at h
  · have hlen := Buffer.length_overwrite h
    omega
  · obtain ⟨mid, hmid, h⟩ := Option.bind_eq_some_iff.mp h
    cases h
    have hkv : alignmentKv.length = 33 := rfl
    rw [Buffer.length_insert, Buffer.length_overwrite hmid, hkv]

/-- The patches of the offsets leave what lies before them alone. -/
theorem take_patchOffsets {metadata metadata' : List UInt8} {n : Nat}
    (h : patchOffsets rd ks metadata = some metadata') (hkept : kvAppended rd = false)
    (hn : ∀ k ∈ ks, n ≤ k.tensor.offsetFieldPos.toNat) : metadata'.take n = metadata.take n := by
  have hshift : kvShift rd = 0 := by
    rw [kvAppended, Option.isNone_eq_false_iff, Option.isSome_iff_exists] at hkept
    obtain ⟨p, hp⟩ := hkept
    rw [kvShift, hp]
  induction ks generalizing metadata with
  | nil =>
    cases h
    rfl
  | cons k ks ih =>
    obtain ⟨hk, hks⟩ := List.forall_mem_cons.mp hn
    simp only [patchOffsets, hkept, hshift, Bool.not_false, Bool.true_or, if_true,
      UInt64.add_zero, Option.bind_eq_bind, Option.bind_eq_some_iff] at h
    obtain ⟨mid, hmid, h⟩ := h
    exact (ih h hks).trans (Buffer.take_overwrite hmid hk)

theorem length_le_kvBytes (kvs : List WireKv) : kvs.length ≤ (kvs.flatMap WireKv.spell).length := by
  rw [List.length_flatMap, ← List.length_map (f := fun kv : WireKv => kv.spell.length)]
  apply List.length_le_sum_of_one_le
  rw [List.forall_mem_map]
  intro kv _
  simp only [WireKv.spell, WireKv.header, spellString, List.length_append, length_bytes]
  omega

/-- The bytes of a file before its number of key-values. -/
def WireFile.upToCount (w : WireFile) : List UInt8 :=
  bytes 4 kGgufMagic ++ bytes 4 w.version.toNat ++ bytes 8 w.tensors.length

theorem WireFile.length_upToCount (w : WireFile) : w.upToCount.length = 16 := by
  simp only [WireFile.upToCount, List.length_append, length_bytes]

theorem WireFile.spell_upToCount (w : WireFile) :
    w.spell = w.upToCount ++
      (bytes 8 w.kvs.length ++ (w.kvs.flatMap WireKv.spell ++ w.tensorBytes)) := by
  simp only [WireFile.upToCount, WireFile.spell, WireHead.spell, WireHead.header,
    WireHead.kvBytes, WireFile.head, List.append_assoc]

/-- The inserted key-value is one more item, behind the others. -/
theorem patchAlignment_none (hpos : (w.reader 0).kvScalarValuePos alignmentKey = none)
    (hfit : w.spell.length < maxOffset) :
    patchAlignment (w.reader 0) w.spell = some (w.withKvs (w.kvs ++ [alignmentItem])).spell := by
  have hmax : maxOffset = 2 ^ 63 := rfl
  have hcount := length_le_kvBytes w.kvs
  have hsplit := w.spell_upToCount
  have hstart := w.length_upToCount
  have hlen := congrArg List.length hsplit
  simp only [List.length_append, length_bytes, hstart] at hlen
  have hvalue : value ((w.spell.drop 16).take 8) = w.kvs.length := by
    rw [hsplit, List.drop_left' hstart, List.take_left' (length_bytes 8 _)]
    exact value_bytes_of_lt (by omega)
  have hword : (UInt64.ofNat w.kvs.length + 1).toNat = w.kvs.length + 1 := by
    have hone : (1 : UInt64).toNat = 1 := rfl
    rw [UInt64.toNat_add, toNat_ofNat_dword (by omega), hone]
    exact Nat.mod_eq_of_lt (by omega)
  have hcopy := Buffer.overwrite_of_length_eq w.upToCount (bytes 8 (w.kvs.length + 1))
    (bytes 8 w.kvs.length) (w.kvs.flatMap WireKv.spell ++ w.tensorBytes)
    ((length_bytes 8 _).trans (length_bytes 8 _).symm)
  rw [← hsplit, hstart] at hcopy
  have hend : (w.reader 0).kvEnd.toNat =
      (w.upToCount ++ (bytes 8 (w.kvs.length + 1) ++ w.kvs.flatMap WireKv.spell)).length := by
    have hhead : w.head.spell.length = 24 + (w.kvs.flatMap WireKv.spell).length := by
      simp only [WireHead.spell, WireHead.header, WireHead.kvBytes, WireFile.head,
        List.length_append, length_bytes]
    rw [WireFile.reader, toNat_ofNat_dword (by omega), List.length_append, hstart]
    simp only [List.length_append, length_bytes]
    omega
  have hinsert := Buffer.insert_append
    (w.upToCount ++ (bytes 8 (w.kvs.length + 1) ++ w.kvs.flatMap WireKv.spell)) alignmentKv
    w.tensorBytes
  rw [← hend] at hinsert
  simp only [patchAlignment, hpos, hvalue, hword, hcopy, Option.bind_eq_bind, Option.bind_some]
  simp only [List.append_assoc] at hinsert ⊢
  rw [hinsert, WireFile.spell_upToCount]
  simp only [WireFile.withKvs, WireFile.tensorBytes, WireFile.upToCount, List.flatMap_append,
    List.length_append, List.flatMap_singleton, spell_alignmentItem, List.length_singleton,
    List.append_assoc]
  rfl

/-- The bytes of a file before and after a value. -/
theorem spell_split {pre post : List WireKv} {key : Str} {v : WireValue}
    (h : w.kvs = pre ++ ⟨key, v⟩ :: post) :
    w.spell = (w.head.header ++ (pre.flatMap WireKv.spell ++ WireKv.header ⟨key, v⟩)) ++
      (v.spell ++ (post.flatMap WireKv.spell ++ w.tensorBytes)) := by
  simp only [WireFile.spell, WireHead.spell, WireHead.kvBytes, WireFile.head, h,
    List.flatMap_append, List.flatMap_cons, WireKv.spell, List.append_assoc]

end Metadata

end NotreEngine.Gguf
