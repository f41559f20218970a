import NotreEngine.Gguf.Copied
import NotreEngine.Gguf.Repacked

/-!
# Preparing a prepared file

The layout that `cne_prepare` has made is the one it makes again: the padding belongs to the spans
now, and rounds to itself.
-/
namespace NotreEngine.Gguf

open FileReader LittleEndian

section Property

/-- The last tensor, if there is one, has a span. -/
def LastSpans (file : List UInt8) : Prop :=
  ∀ rd t, GgufReader.open file = .ok rd → rd.tensors.getLast? = some t →
    spanTo rd (UInt64.ofNat file.length) t none ≠ 0

/-- What `cne_prepare` writes for the file is what it writes for that, with no less disk space. -/
def Idempotent (file : List UInt8) : Prop :=
  ∀ available out, prepareFile available file = .ok out → LastSpans file →
    ∀ available', available ≤ available' → prepareFile available' out = .ok out

end Property

section Metadata

variable {rd : GgufReader} {file out metadata : List UInt8} {available fileSize c : UInt64}
  {m : ModelManifest} {w : WireFile} {ts : List RawTensor} {ks : List Move} {sizes : List Nat}
  {a start : Nat} {key : Str} {m₁ m₂ : Kvs}

/-- The spans of tensors that are packed up to the end of the file. -/
theorem span_repack (h : PackedFrom a start ts sizes)
    (hlast : ∀ t n, ts.getLast? = some t → sizes.getLast? = some n →
      (spanTo rd fileSize t none).toNat = n) :
    (repack rd fileSize c ts).1.map (fun k => k.span.toNat) = Packing.padded a sizes := by
  induction ts generalizing start c sizes with
  | nil =>
    cases sizes with
    | nil => rfl
    | cons n ns => exact h.elim
  | cons t ts ih =>
    cases sizes with
    | nil => exact h.elim
    | cons n ns =>
      cases ts with
      | nil =>
        cases ns with
        | nil => exact congrArg (fun n => [n]) (hlast t n rfl rfl)
        | cons n' ns => exact h.2.elim
      | cons t' ts =>
        cases ns with
        | nil => exact h.2.elim
        | cons n' ns =>
          have hspan : (spanTo rd fileSize t (some t')).toNat = Packing.alignUp n a :=
            toNat_spanTo_some (i := 0) h rfl rfl rfl
          rw [List.getLast?_cons_cons, List.getLast?_cons_cons] at hlast
          rw [Packing.padded, ← hspan, ← ih h.2 hlast]
          rfl

theorem retarget_self (w : WireFile) : w.retarget (w.tensors.map WireTensor.relOffset) = w := by
  have hzip : ∀ ts : List WireTensor,
      List.zipWith WireTensor.retarget ts (ts.map WireTensor.relOffset) = ts := by
    intro ts
    induction ts with
    | nil => rfl
    | cons t ts ih => rw [List.map_cons, List.zipWith_cons_cons, ih, WireTensor.retarget]
  rw [WireFile.retarget, hzip]

/-- Offsets that are there already. -/
theorem Parsed.patchOffsets_self (hw : Parsed file rd w) (hlen : file.length < maxOffset)
    (hshift : kvShift rd = 0) (htensors : ks.map Move.tensor = rd.tensors)
    (hrels : ks.map Move.newRel = rd.tensors.map RawTensor.relOffset) :
    patchOffsets rd ks w.spell = some w.spell := by
  have hroom := hw.spell_lt hlen
  have hend : rd.kvEnd.toNat = w.head.spell.length := by
    rw [hw.reader, kvEnd_reader, toNat_ofNat_dword (by omega)]
  have hzero : (kvShift rd).toNat = 0 := by
    rw [hshift]
    rfl
  rw [hw.reader, tensors_reader] at htensors
  rw [hw.reader, map_relOffset_reader] at hrels
  have hfit : (w.head.spell ++ w.tensors.flatMap WireTensor.spell).length < 2 ^ 64 := by
    rw [List.length_append]
    simp only [WireFile.tensorBytes] at hroom
    omega
  have hpatch := patchOffsets_spell w.head.spell htensors hzero.symm (Nat.add_zero _) hend.le hfit
  have hself := congrArg WireFile.tensors (retarget_self w)
  rw [hrels] at hpatch
  rw [WireFile.retarget] at hself
  simp only at hself
  rw [hself] at hpatch
  exact hpatch

theorem WireKv.pos_store_congr (kv : WireKv) (pos : Nat) (h : m₁.pos = m₂.pos) :
    (kv.store pos m₁).pos = (kv.store pos m₂).pos := by
  obtain ⟨k, v⟩ := kv
  cases v with
  | string s => exact h
  | array bs => exact h
  | scalar ty bs => cases ty <;> simp [WireKv.store, WireValue.store, Kvs.set, h]

/-- Recorded positions do not depend on the values. -/
theorem pos_storeAll_congr (kvs : List WireKv) (pos : Nat) (h : m₁.pos = m₂.pos) :
    (storeAll WireKv.spell WireKv.store pos kvs m₁).pos =
      (storeAll WireKv.spell WireKv.store pos kvs m₂).pos := by
  induction kvs generalizing pos m₁ m₂ with
  | nil => exact h
  | cons kv kvs ih => exact ih _ (kv.pos_store_congr pos h)

theorem pos_storeAll_replace {pre post : List WireKv} {ty : ValueType} {bs bs' : List UInt8}
    (hlen : bs'.length = bs.length) (pos : Nat) :
    (storeAll WireKv.spell WireKv.store pos (pre ++ ⟨key, .scalar ty bs'⟩ :: post) {}).pos =
      (storeAll WireKv.spell WireKv.store pos (pre ++ ⟨key, .scalar ty bs⟩ :: post) {}).pos := by
  have hspell : (WireKv.spell ⟨key, .scalar ty bs'⟩).length =
      (WireKv.spell ⟨key, .scalar ty bs⟩).length := by
    simp only [WireKv.spell, WireKv.header, WireValue.spell, WireValue.type, List.length_append,
      hlen]
  rw [storeAll_append, storeAll_append, storeAll, storeAll, hspell]
  apply pos_storeAll_congr
  cases ty <;> rfl

theorem kvPos_reader_replace {w w' : WireFile} {pre post : List WireKv} {ty : ValueType}
    {bs bs' : List UInt8} (h : w.kvs = pre ++ ⟨key, .scalar ty bs⟩ :: post)
    (h' : w'.kvs = pre ++ ⟨key, .scalar ty bs'⟩ :: post) (hlen : bs'.length = bs.length) :
    (w'.reader 0).kvPos = (w.reader 0).kvPos := by
  have hheader : w'.head.header.length = w.head.header.length := by
    simp only [WireHead.header, List.length_append, length_bytes]
  show (w'.head.maps 0).pos = (w.head.maps 0).pos
  rw [WireHead.maps, WireHead.maps, hheader, show w.head.kvs = _ from h,
    show w'.head.kvs = _ from h']
  exact pos_storeAll_replace hlen _

/-- The alignment is recorded in the rewritten file, and the bytes there are those of 4096. -/
def AlignmentThere (w : WireFile) : Prop :=
  ∃ pos, (w.reader 0).kvScalarValuePos alignmentKey = some pos ∧
    bytes 4 kAlign.toNat <+: w.spell.drop pos.toNat

theorem alignmentThere_of_appended {w : WireFile} {kvs : List WireKv}
    (h : w.kvs = kvs ++ [alignmentItem]) (hlen : w.spell.length < 2 ^ 63) : AlignmentThere w := by
  have hspell := spell_split (show w.kvs = kvs ++ alignmentItem :: [] from h)
  have hpos : (w.reader 0).kvScalarValuePos alignmentKey = some (UInt64.ofNat
      (0 + w.head.header.length + (kvs.flatMap WireKv.spell).length +
        alignmentItem.header.length)) := by
    have hkvs : w.head.kvs = kvs ++ [alignmentItem] := h
    show (w.head.maps 0).pos alignmentKey = _
    rw [WireHead.maps, hkvs, storeAll_append, storeAll, storeAll]
    simp [alignmentItem, WireKv.store, WireValue.store, Kvs.set]
  refine ⟨_, hpos, ?_⟩
  generalize hfront : w.head.header ++ (kvs.flatMap WireKv.spell ++
    WireKv.header ⟨alignmentKey, .scalar .uint32 (bytes 4 kAlign.toNat)⟩) = front at hspell
  have hstart : 0 + w.head.header.length + (kvs.flatMap WireKv.spell).length +
      alignmentItem.header.length = front.length := by
    rw [← hfront, List.length_append, List.length_append, Nat.zero_add, Nat.add_assoc]
    rfl
  rw [hspell, List.length_append] at hlen
  rw [hstart, toNat_ofNat_dword (by omega), hspell, List.drop_left]
  exact List.prefix_append _ _

/-- Where the written bytes fit, the output has its alignment at the recorded position. -/
theorem Exited.alignmentThere (h : Exited available file out metadata rd m)
    (hlen : file.length < maxOffset) (hw : Parsed file rd w) (hfits : PatchFits file) :
    ∃ kvs, Edited rd w kvs ∧ AlignmentThere ((w.withKvs kvs).retarget (newRels file rd)) := by
  have hmax : maxOffset = 2 ^ 63 := rfl
  obtain ⟨hgrow, hout, _⟩ := h.copied hlen
  cases hpos : rd.kvScalarValuePos alignmentKey with
  | none =>
    have he := hw.edited_of_absent hlen hpos
    obtain ⟨hmeta, _⟩ := h.rewritten hlen hw he
    have hle := hgrow.length_le
    rw [hmeta] at hle
    exact ⟨_, he, alignmentThere_of_appended rfl (by omega)⟩
  | some pos =>
    obtain ⟨pre, ty, bs, bs', post, hrec, hsize, he⟩ := h.edited_of_recorded hlen hw hpos hfits
    obtain ⟨hmeta, _⟩ := h.rewritten hlen hw he
    obtain ⟨hinside, hwritten⟩ := h.alignment_written hlen hw hpos hrec
    refine ⟨_, he, pos, ?_, ?_⟩
    · have hsource := congrFun (congrArg GgufReader.kvPos hw.reader) alignmentKey
      have hkvs : ((w.withKvs (pre ++ ⟨alignmentKey, .scalar ty bs'⟩ :: post)).retarget
          (newRels file rd)).kvs = pre ++ ⟨alignmentKey, .scalar ty bs'⟩ :: post := rfl
      have hsame := congrFun (kvPos_reader_replace hrec.kvs hkvs hsize) alignmentKey
      exact hsame.trans (hsource.symm.trans hpos)
    · obtain ⟨mid, hmid, hoffsets⟩ := h.patched
      rw [hw.take_metaEnd hlen, patchAlignment_recorded hpos hrec, hrec.spell] at hmid
      have hmeta_len := (length_patchOffsets hoffsets).trans (Buffer.length_overwrite hmid)
      rw [List.length_append] at hmeta_len
      have hin := List.prefix_of_prefix_length_le hwritten hgrow (by
        rw [List.length_append, length_bytes]
        omega)
      obtain ⟨rest, hrest⟩ := hin
      rw [← hmeta, ← hrest, hrec.position, List.append_assoc, List.drop_left]
      exact List.prefix_append _ _

end Metadata

section Again

variable {rd rd' : GgufReader} {file out metadata : List UInt8} {available available' : UInt64}
  {m : ModelManifest} {w : WireFile}

/-- The start of the data in the output. -/
def newDataStart (metadata : List UInt8) : UInt64 :=
  alignUp (UInt64.ofNat metadata.length) kAlign

/-- The moves of a file. -/
def moves (file : List UInt8) (rd : GgufReader) : List Move :=
  (repack rd (UInt64.ofNat file.length) 0 rd.tensors).1

theorem Exited.length_le_dataStart (h : Exited available file out metadata rd m)
    (hlen : file.length < maxOffset) : metadata.length ≤ (newDataStart metadata).toNat := by
  obtain ⟨hgrow, hout, _⟩ := h.copied hlen
  have hle := hgrow.length_le
  have hmax : maxOffset = 2 ^ 63 := rfl
  have hword : (UInt64.ofNat metadata.length).toNat = metadata.length :=
    toNat_ofNat_dword (by omega)
  have hup := toNat_alignUp (v := UInt64.ofNat metadata.length) (by omega)
  rw [newDataStart, hup, hword]
  exact Packing.le_alignUp (by decide)

theorem Exited.moves_room (h : Exited available file out metadata rd m)
    (hlen : file.length < maxOffset) : ∀ k ∈ moves file rd,
      (newDataStart metadata + k.newRel).toNat =
        (newDataStart metadata).toNat + k.newRel.toNat := by
  obtain ⟨_, _, hall⟩ := h.copied hlen
  have hroom : (newDataStart metadata).toNat + (0 : UInt64).toNat < 2 ^ 64 := by
    have hzero : (0 : UInt64).toNat = 0 := rfl
    have := (newDataStart metadata).toNat_lt
    omega
  exact (repack_room (fun k hk => (hall k hk).2.1) (fun k hk => (hall k hk).1) hroom).1

theorem Exited.span_pos (h : Exited available file out metadata rd m) (hlast : LastSpans file) :
    ∀ k ∈ moves file rd, 0 < k.span.toNat := by
  have hbuilt := built_of_build h.built
  have hscan := hbuilt.scanned
  rw [h.sorted] at hscan
  have hinit : ∀ n ∈ ((moves file rd).map fun k => k.span.toNat).dropLast, 0 < n :=
    Gguf.span_pos (relOffset_ne_of_scanned hscan (checkSpans_ok hbuilt.checked).2)
  intro k hk
  obtain ⟨last, hend⟩ : ∃ last, (moves file rd).getLast? = some last :=
    Option.isSome_iff_exists.mp (List.getLast?_isSome.mpr (List.ne_nil_of_mem hk))
  obtain ⟨htensor, hspan, _⟩ := repack_last hend
  have hsplit : ((moves file rd).map fun k => k.span.toNat).dropLast ++ [last.span.toNat] =
      (moves file rd).map fun k => k.span.toNat :=
    List.dropLast_append_getLast? _ (by rw [List.getLast?_map, hend]; rfl)
  have hmem : k.span.toNat ∈ (moves file rd).map fun k => k.span.toNat :=
    List.mem_map_of_mem (f := fun k : Move => k.span.toNat) hk
  rw [← hsplit, List.mem_append, List.mem_singleton] at hmem
  rcases hmem with hmem | hmem
  · exact hinit _ hmem
  · rw [hmem]
    apply Nat.pos_of_ne_zero
    intro hzero
    exact hlast rd last.tensor h.opened htensor (hspan ▸ UInt64.toNat_inj.mp hzero)

/-- What the copy has made of the metadata: with tensors, zeros up to the data, and the last of them
at the end. -/
theorem Exited.image (h : Exited available file out metadata rd m)
    (hlen : file.length < maxOffset) (hlast : LastSpans file) :
    moves file rd = [] ∧ out = metadata ∨
      out.take (newDataStart metadata).toNat = metadata ++
          List.replicate ((newDataStart metadata).toNat - metadata.length) 0 ∧
        ∃ k, (moves file rd).getLast? = some k ∧
          out.length = (newDataStart metadata).toNat + k.newRel.toNat + k.span.toNat := by
  obtain ⟨_, _, hcopied⟩ := writeOut_ok h.written
  change copyData rd file (newDataStart metadata) (moves file rd) metadata = .ok out at hcopied
  have hroom := h.moves_room hlen
  have hspan := h.span_pos hlast
  have hle := h.length_le_dataStart hlen
  have hpacked := h.packed hlen
  rw [newRels, List.map_map] at hpacked
  change Packing.Packed 4096 0 ((moves file rd).map fun k => k.newRel.toNat)
    ((moves file rd).map fun k => k.span.toNat) at hpacked
  generalize moves file rd = ks at hcopied hroom hspan hpacked
  cases ks with
  | nil =>
    cases hcopied
    exact .inl ⟨rfl, rfl⟩
  | cons k ks =>
    right
    obtain ⟨last, hend⟩ : ∃ last, (k :: ks).getLast? = some last := by
      simp [List.getLast?_cons]
    have hne : ∀ k' ∈ k :: ks, k'.span ≠ 0 := by
      intro k' hk' hzero
      have hpos := hspan k' hk'
      rw [hzero] at hpos
      exact absurd hpos (lt_irrefl 0)
    have hgap := copyData_gap hcopied hroom hpacked hle (hne k List.mem_cons_self)
    refine ⟨?_, last, hend, copyData_end hcopied hroom hpacked hle hend
      (hne last (List.mem_of_getLast? hend))⟩
    rw [List.prefix_iff_eq_take] at hgap
    rw [Nat.add_zero] at hgap
    have hlength : (metadata ++ List.replicate
        ((newDataStart metadata).toNat - metadata.length) (0 : UInt8)).length =
          (newDataStart metadata).toNat := by
      rw [List.length_append, List.length_replicate]
      omega
    rw [hlength] at hgap
    exact hgap.symm

theorem getLast?_map_eq {α β γ : Type} {xs : List α} {ys : List β} {f : α → γ} {g : β → γ}
    (h : xs.map f = ys.map g) {x : α} (hx : xs.getLast? = some x) :
    ∃ y, ys.getLast? = some y ∧ g y = f x := by
  have hlast := congrArg List.getLast? h
  rw [List.getLast?_map, List.getLast?_map, hx] at hlast
  exact Option.map_eq_some_iff.mp hlast.symm

/-- The layout of the output is its own: the offsets stay, the spans have their padding. -/
theorem Exited.moves_again (h : Exited available file out metadata rd m)
    (hlen : file.length < maxOffset) (hlast : LastSpans file)
    (hdata : rd'.dataOffset = newDataStart metadata)
    (hnew : rd'.tensors.map RawTensor.relOffset = newRels file rd) :
    (moves out rd').map Move.newRel = (moves file rd).map Move.newRel ∧
      (moves out rd').map (fun k => k.span.toNat) =
        Packing.padded 4096 ((moves file rd).map fun k => k.span.toNat) := by
  have hpacked : PackedFrom 4096 0 rd'.tensors ((moves file rd).map fun k => k.span.toNat) := by
    have hp := h.packed hlen
    rw [← hnew, List.map_map] at hp
    exact hp
  obtain ⟨_, hout, _⟩ := h.copied hlen
  have hmax : maxOffset = 2 ^ 63 := rfl
  refine ⟨(newRel_repack_of_dvd hpacked (dvd_refl 4096) rfl).trans hnew,
    span_repack hpacked fun t n ht hn => ?_⟩
  obtain ⟨k, hk, rfl⟩ := Option.map_eq_some_iff.mp ((List.getLast?_map).symm.trans hn)
  have hrel : t.relOffset = k.newRel := by
    obtain ⟨k', hk', hrel⟩ := getLast?_map_eq hnew ht
    rw [show (repack rd (UInt64.ofNat file.length) 0 rd.tensors).1.getLast? = some k from hk] at hk'
    cases hk'
    exact hrel.symm
  rcases h.image hlen hlast with ⟨hnil, _⟩ | ⟨_, k', hk', hend⟩
  · rw [hnil] at hk
    cases hk
  · rw [hk] at hk'
    cases hk'
    have hsize : (UInt64.ofNat out.length).toNat = out.length := toNat_ofNat_dword (by omega)
    rw [toNat_spanTo_none (by rw [hdata, hrel, hsize]; omega), hsize, hdata, hrel]
    omega

/-- The seeks of the second copy are those of the first. -/
theorem Exited.room_again (h : Exited available file out metadata rd m)
    (hlen : file.length < maxOffset)
    (hrels : (moves out rd').map Move.newRel = (moves file rd).map Move.newRel) :
    ∀ k ∈ moves out rd', (newDataStart metadata + k.newRel).toNat =
      (newDataStart metadata).toNat + k.newRel.toNat := by
  intro k hk
  have hmem : k.newRel ∈ (moves out rd').map Move.newRel := List.mem_map_of_mem hk
  rw [hrels] at hmem
  obtain ⟨k₀, hk₀, hrel⟩ := List.mem_map.mp hmem
  rw [← hrel]
  exact h.moves_room hlen k₀ hk₀

/-- The tensors of the output lie next to one another, each where it is copied to. -/
theorem Exited.tight_again (h : Exited available file out metadata rd m)
    (hlen : file.length < maxOffset) (hlast : LastSpans file)
    (hdata : rd'.dataOffset = newDataStart metadata)
    (hnew : rd'.tensors.map RawTensor.relOffset = newRels file rd) :
    (∀ k ∈ moves out rd', 0 < k.span.toNat) ∧
      (∀ k ∈ moves out rd', k.tensor.relOffset = k.newRel) ∧
      Packing.Packed 1 0 ((moves out rd').map fun k => k.newRel.toNat)
        ((moves out rd').map fun k => k.span.toNat) := by
  obtain ⟨hrels, hspans⟩ := h.moves_again hlen hlast hdata hnew
  refine ⟨fun k hk => ?_, fun k hk => ?_, ?_⟩
  · have hmem := List.mem_map_of_mem (f := fun k : Move => k.span.toNat) hk
    rw [hspans] at hmem
    refine Packing.padded_pos (by decide) (fun n hn => ?_) _ hmem
    obtain ⟨k₀, hk₀, rfl⟩ := List.mem_map.mp hn
    exact h.span_pos hlast k₀ hk₀
  · have hsame : (moves out rd').map (fun k => k.tensor.relOffset) =
        (moves out rd').map Move.newRel := by
      have htensors : (moves out rd').map Move.tensor = rd'.tensors := map_tensor_repack _ _ _ _
      have hmap := congrArg (List.map RawTensor.relOffset) htensors
      rw [List.map_map, hnew] at hmap
      exact hmap.trans hrels.symm
    exact List.map_inj_left.mp hsame k hk
  · have hp := (h.packed hlen).tight
    have hnat := congrArg (List.map UInt64.toNat) hrels
    rw [List.map_map, List.map_map] at hnat
    rw [newRels, List.map_map] at hp
    rw [hspans]
    exact hnat ▸ hp

/-- The last tensor of the second copy ends where the output does. -/
theorem Exited.end_again (h : Exited available file out metadata rd m)
    (hlen : file.length < maxOffset) (hlast : LastSpans file)
    (hdata : rd'.dataOffset = newDataStart metadata)
    (hnew : rd'.tensors.map RawTensor.relOffset = newRels file rd) {k₀ : Move}
    (hk₀ : (moves file rd).getLast? = some k₀) :
    ∃ k, (moves out rd').getLast? = some k ∧ k.newRel = k₀.newRel ∧ k.span = k₀.span := by
  obtain ⟨hrels, hspans⟩ := h.moves_again hlen hlast hdata hnew
  obtain ⟨k, hk, hrel⟩ := getLast?_map_eq hrels.symm hk₀
  have hlast' := congrArg List.getLast? hspans
  rw [Packing.getLast?_padded, List.getLast?_map, List.getLast?_map, hk, hk₀] at hlast'
  exact ⟨k, hk, hrel, UInt64.toNat_inj.mp (Option.some.inj hlast')⟩

theorem Exited.copied_again (h : Exited available file out metadata rd m)
    (hlen : file.length < maxOffset) (hlast : LastSpans file)
    (hdata : rd'.dataOffset = newDataStart metadata)
    (hnew : rd'.tensors.map RawTensor.relOffset = newRels file rd) :
    copyData rd' out (newDataStart metadata) (moves out rd') metadata = .ok out := by
  obtain ⟨hrels, _⟩ := h.moves_again hlen hlast hdata hnew
  obtain ⟨hgrow, hout, _⟩ := h.copied hlen
  have hroom := h.room_again hlen hrels
  obtain ⟨hspan, hrel, htight⟩ := h.tight_again hlen hlast hdata hnew
  have hleading : out.take metadata.length = metadata := (List.prefix_iff_eq_take.mp hgrow).symm
  rcases h.image hlen hlast with ⟨hnil, rfl⟩ | ⟨hgap, k₀, hk₀, hend⟩
  · rw [hnil, List.map_nil] at hrels
    rw [List.map_eq_nil_iff.mp hrels]
    rfl
  · obtain ⟨last, hlast', hrel', hspan'⟩ := h.end_again hlen hlast hdata hnew hk₀
    have hends : ∀ k, (moves out rd').getLast? = some k →
        (newDataStart metadata).toNat + k.newRel.toNat + k.span.toNat = out.length := by
      intro k hk
      obtain rfl := Option.some.inj (hlast'.symm.trans hk)
      rw [hrel', hspan', hend]
    have hle := h.length_le_dataStart hlen
    generalize moves out rd' = ks at hroom hspan htight hrel hends hlast'
    cases ks with
    | nil => cases hlast'
    | cons k ks =>
      rw [← hleading] at hgap
      have htiles := copyData_tiles hdata hrel hroom hspan htight hends hout
        (q := metadata.length) hle (by
          rw [Nat.add_zero]
          simpa only [hleading] using hgap)
      rwa [hleading] at htiles

/-- The second layout ends where the first does, and the output is no larger. -/
theorem Exited.cursor_again (h : Exited available file out metadata rd m)
    (hlen : file.length < maxOffset) (hlast : LastSpans file)
    (hdata : rd'.dataOffset = newDataStart metadata)
    (hnew : rd'.tensors.map RawTensor.relOffset = newRels file rd) :
    (repack rd' (UInt64.ofNat out.length) 0 rd'.tensors).2 =
      (repack rd (UInt64.ofNat file.length) 0 rd.tensors).2 ∧
        UInt64.ofNat out.length ≤
          newDataStart metadata + (repack rd (UInt64.ofNat file.length) 0 rd.tensors).2 := by
  obtain ⟨hrels, _⟩ := h.moves_again hlen hlast hdata hnew
  obtain ⟨_, hout, hall⟩ := h.copied hlen
  have hmax : maxOffset = 2 ^ 63 := rfl
  have hsize : (UInt64.ofNat out.length).toNat = out.length := toNat_ofNat_dword (by omega)
  have hle := h.length_le_dataStart hlen
  rcases h.image hlen hlast with ⟨hnil, rfl⟩ | ⟨_, k, hk, hend⟩
  · have htensors : rd.tensors = [] := by
      rw [← map_tensor_repack rd (UInt64.ofNat file.length) 0 rd.tensors]
      exact List.map_eq_nil_iff.mpr hnil
    have htensors' : rd'.tensors = [] := by
      rw [hnil, List.map_nil] at hrels
      rw [← map_tensor_repack rd' (UInt64.ofNat out.length) 0 rd'.tensors]
      exact List.map_eq_nil_iff.mpr (List.map_eq_nil_iff.mp hrels)
    rw [htensors, htensors']
    refine ⟨rfl, ?_⟩
    show _ ≤ _ + (0 : UInt64)
    rwa [UInt64.add_zero, UInt64.le_iff_toNat_le, hsize]
  · obtain ⟨k', hk', hrel, hspan⟩ := h.end_again hlen hlast hdata hnew hk
    obtain ⟨_, _, hcursor⟩ := repack_last hk
    obtain ⟨_, _, hcursor'⟩ := repack_last hk'
    rw [hcursor, hcursor', hrel, hspan]
    refine ⟨rfl, ?_⟩
    obtain ⟨hoffset, hs, _⟩ := hall k (List.mem_of_getLast? hk)
    have hsum := h.moves_room hlen k (List.mem_of_getLast? hk)
    have hlt := (newDataStart metadata + k.newRel).toNat_lt
    have hfit : (newDataStart metadata).toNat + k.newRel.toNat < 2 ^ 64 := by omega
    obtain ⟨_, _, hnext, hroom'⟩ := toNat_cursor hs hfit hoffset
    have hup := Packing.le_alignUp (v := k.span.toNat) (a := 4096) (by decide)
    rw [UInt64.le_iff_toNat_le, hsize, UInt64.toNat_add, Nat.mod_eq_of_lt hroom', hnext]
    omega

/-- The output needs the space that its source needed, and is no smaller than it has to be. -/
theorem Exited.written_again (h : Exited available file out metadata rd m)
    (hlen : file.length < maxOffset) (hlast : LastSpans file) (hspace : available ≤ available')
    (hdata : rd'.dataOffset = newDataStart metadata)
    (hnew : rd'.tensors.map RawTensor.relOffset = newRels file rd) :
    writeOut available' (UInt64.ofNat out.length) rd' out metadata (moves out rd')
      (repack rd' (UInt64.ofNat out.length) 0 rd'.tensors).2 = .ok out := by
  obtain ⟨hroom, hseek, _⟩ := writeOut_ok h.written
  obtain ⟨hcursor, hfits⟩ := h.cursor_again hlen hlast hdata hnew
  rw [newDataStart] at hfits
  rw [writeOut, hcursor, if_neg (UInt64.not_lt.mpr hfits),
    if_neg (UInt64.not_lt.mpr (UInt64.le_trans hroom hspace)), if_neg (not_not.mpr hseek)]
  exact h.copied_again hlen hlast hdata hnew

/-- The output passes the validation against its own manifest. -/
theorem revalidates_self (h : revalidates m out = true) (hopen : GgufReader.open out = .ok rd') :
    ∃ m', build (UInt64.ofNat out.length) (.ok rd') = .ok m' ∧ revalidates m' out = true := by
  simp only [revalidates, hopen, validates] at h ⊢
  cases hb : build (UInt64.ofNat out.length) (.ok rd') with
  | error e =>
    rw [hb] at h
    cases h
  | ok m' =>
    rw [hb] at h
    refine ⟨m', rfl, ?_⟩
    simp only [Bool.and_eq_true, decide_eq_true_eq] at h ⊢
    simp only [h, and_self]

theorem Exited.again (h : Exited available file out metadata rd m) (hlen : file.length < maxOffset)
    (hfits : PatchFits file) (hlast : LastSpans file) (hspace : available ≤ available') :
    ∃ rd' m', Exited available' out out metadata rd' m' := by
  obtain ⟨w, hw⟩ := h.parsed hlen
  obtain ⟨kvs, he, pos, hpos, hthere⟩ := h.alignmentThere hlen hw hfits
  obtain ⟨hmeta, rd', htarget, _, hdata, hnew⟩ := h.rewritten hlen hw he
  obtain ⟨_, hout, _⟩ := h.copied hlen
  obtain ⟨m', hbuild, hvalid⟩ := revalidates_self h.validated htarget.opened
  obtain ⟨hrels, _⟩ := h.moves_again hlen hlast hdata hnew
  have hsize : m'.fileSize = UInt64.ofNat out.length := (built_of_build hbuild).size
  have hpacked : PackedFrom 4096 0 rd'.tensors
      ((repack rd (UInt64.ofNat file.length) 0 rd.tensors).1.map fun k => k.span.toNat) := by
    have hp := h.packed hlen
    rw [← hnew, List.map_map] at hp
    exact hp
  refine ⟨rd', m', htarget.opened, hbuild, sortByOffset_of_packed hpacked, ?_,
    ⟨metadata, ?_, ?_⟩, ?_, hvalid⟩
  · have hle := htarget.spelled.length_le
    have hmax : maxOffset = 2 ^ 63 := rfl
    rw [htarget.reader, metaEnd_reader, toNat_ofNat_dword (by omega)]
    exact hle
  · have hinside := hthere.length_le
    rw [List.length_drop, length_bytes] at hinside
    rw [htarget.take_metaEnd hout, patchAlignment, htarget.reader, hpos, hmeta]
    apply Buffer.overwrite_self hthere
    rw [length_bytes]
    omega
  · rw [hmeta]
    apply htarget.patchOffsets_self hout
    · rw [kvShift, htarget.reader, hpos]
    · exact map_tensor_repack _ _ _ _
    · exact hrels.trans hnew.symm
  · rw [hsize]
    exact h.written_again hlen hlast hspace hdata hnew

theorem idempotent_of_patchFits (hlen : file.length < maxOffset) (hfits : PatchFits file) :
    Idempotent file := by
  intro available out hfirst hlast available' hspace
  obtain ⟨metadata, rd, m, h⟩ := prepareFile_ok_iff.mp hfirst
  obtain ⟨rd', m', hagain⟩ := h.again hlen hfits hlast hspace
  exact prepareFile_ok_iff.mpr ⟨metadata, rd', m', hagain⟩

end Again

section Example

set_option maxRecDepth 4000 in
theorem lastSpans_wide : LastSpans ((wide 32).withData 160) := by
  intro rd t hopen ht
  rw [opened_wide] at hopen
  cases hopen
  cases ht
  rw [length_withData (by decide)]
  decide

theorem idempotent_of_patchFits_wide :
    prepareFile 8192 ((wide 4096).withData 4096) = .ok ((wide 4096).withData 4096) :=
  idempotent_of_patchFits length_wide patchFits_wide 8192 _ prepareFile_wide lastSpans_wide 8192
    (UInt64.le_refl 8192)

/-- A name that reads as a value and a tensor. -/
def hidden : Str :=
  bytes 4 ValueType.uint8.code ++ [0] ++ WireTensor.spell ⟨text "t", [], 0, 1⟩

def trap : WireFile :=
  sample [⟨alignmentKey, .scalar .uint16 (bytes 2 32)⟩, ⟨hidden, .scalar .uint8 [0]⟩]

/-- The tensor in the name has become the one of the directory. -/
def trapped : WireFile :=
  { sample [⟨alignmentKey, .scalar .uint16 (bytes 2 4096)⟩, ⟨[], .scalar .uint8 [0]⟩] with
    tensors := [⟨text "t", [], 0, 1⟩] }

theorem trap_ok : trap.Ok 0 ∧ trapped.Ok 0 := by
  have hkey : alignmentKey.length ≤ kMaxNameLen := by decide
  have hname : hidden.length ≤ kMaxNameLen := by decide
  constructor
  · refine sample_ok le_rfl ?_ (by decide)
    simp only [List.forall_mem_cons, List.not_mem_nil, false_imp_iff, implies_true, and_true]
    exact ⟨⟨hkey, by decide, by decide, rfl⟩, hname, by decide, by decide, rfl⟩
  · have hsample : (sample [⟨alignmentKey, .scalar .uint16 (bytes 2 4096)⟩,
        ⟨[], .scalar .uint8 [0]⟩]).Ok 0 := by
      refine sample_ok le_rfl ?_ (by decide)
      simp only [List.forall_mem_cons, List.not_mem_nil, false_imp_iff, implies_true, and_true]
      exact ⟨⟨hkey, by decide, by decide, rfl⟩, Nat.zero_le _, by decide, by decide, rfl⟩
    refine ⟨hsample.head, hsample.alignment, fun t ht => ?_⟩
    obtain rfl := List.mem_singleton.mp ht
    exact ⟨by decide, by decide⟩

/-- What is left of the metadata behind it. -/
def leftover : List UInt8 :=
  bytes 4 ValueType.uint8.code ++ [0] ++ WireTensor.spell ⟨text "t", [8], 0, 0⟩

/-- What the first run writes. -/
def sprung : List UInt8 :=
  Buffer.write 0 4096 (List.replicate 32 9) (trapped.spell ++ leftover)

set_option maxRecDepth 4000 in
theorem prepareFile_trap : prepareFile 8192 (trap.withData 224) = .ok sprung := by
  have hrun : (build 256 (.ok (trap.reader 0))).toOption.map
      (fun m => validates m ⟨trapped.reader 0, 4128⟩) = some true := by rfl
  obtain ⟨m, hb, hvalid⟩ := exists_ok hrun
  exact prepareFile_withData trap_ok.1 trap_ok.2 (by decide) (by decide)
    (List.prefix_append _ _) (by decide) rfl rfl rfl hb ⟨_, rfl, rfl⟩ rfl hvalid

set_option maxRecDepth 4000 in
theorem parsed_sprung : Parsed sprung (trapped.reader 0) trapped ∧ sprung.length < maxOffset := by
  have hfit : (trapped.spell ++ leftover).length ≤ 4096 := by decide
  have hlen : sprung.length = 4096 + 32 := Buffer.length_write 0 hfit (by decide)
  have hmax : maxOffset = 2 ^ 63 := rfl
  have hpre : trapped.spell <+: sprung :=
    (List.prefix_append _ _).trans (Buffer.prefix_write hfit)
  exact ⟨⟨open_of_wire trap_ok.2 hpre (by omega), rfl, hpre, trap_ok.2⟩, by omega⟩

set_option maxRecDepth 4000 in
theorem patchFits_sprung : PatchFits sprung := by
  intro rd pos hopen hpos
  rw [parsed_sprung.1.opened] at hopen
  cases hopen
  have hvalue : pos = 123 := Option.some.inj (hpos.symm.trans rfl)
  subst hvalue
  decide

set_option maxRecDepth 4000 in
/-- The first run overwrites the length of a name, and what the second run then takes for the
tensor lies at another offset than the one it writes. -/
theorem not_idempotent : ¬Idempotent (trap.withData 224) := by
  intro hsame
  have hlast : LastSpans (trap.withData 224) := by
    intro rd t hopen ht
    rw [(parsed_withData trap_ok.1 (by decide) (by decide)).opened] at hopen
    cases hopen
    cases ht
    rw [length_withData (by decide)]
    decide
  obtain ⟨metadata, rd, m, h⟩ := prepareFile_ok_iff.mp
    (hsame 8192 _ prepareFile_trap hlast 8192 (UInt64.le_refl 8192))
  have hopened := h.opened
  rw [parsed_sprung.1.opened] at hopened
  cases hopened
  obtain ⟨hw, hlen⟩ := parsed_sprung
  obtain ⟨_, he, _⟩ := h.alignmentThere hlen hw patchFits_sprung
  obtain ⟨_, rd', htarget, _, _, hrels⟩ := h.rewritten hlen hw he
  rw [show rd' = trapped.reader 0 from
    Except.ok.inj (htarget.opened.symm.trans hw.opened)] at hrels
  have hfirst : (trapped.reader 0).tensors.map RawTensor.relOffset = [1] := rfl
  rw [hfirst] at hrels
  exact absurd hrels (by decide)

end Example

end NotreEngine.Gguf
