import NotreEngine.Gguf.Copied
import NotreEngine.Gguf.Preserved
import NotreEngine.Gguf.Truncated

/-!
# The packing rule

Loaders expect each offset to be the sum of the padded sizes before it. The tool rounds spans, which
are rounded to the old alignment already, and that is rounding the sizes as long as the old
alignment is not the coarser one.
-/
namespace NotreEngine.Gguf

open FileReader LittleEndian

section Rule

variable {r : GgufReader} {fileSize c : UInt64} {ts : List RawTensor} {sizes : List Nat}
  {a start : Nat} {file : List UInt8}

/-- The new offsets are the sums of the sizes padded to 4096. -/
def FollowsRule (file : List UInt8) (rd : GgufReader) (sizes : List Nat) : Prop :=
  Packing.Packed kAlign.toNat 0 ((newRels file rd).map UInt64.toNat) sizes

/-- The last of the new offsets. -/
def paddedBeforeLast (sizes : List Nat) : Nat :=
  (sizes.dropLast.map fun n => Packing.alignUp n kAlign.toNat).sum

theorem toNat_alignUp_mod (v : UInt64) :
    (alignUp v kAlign).toNat = Packing.alignUp v.toNat 4096 % 2 ^ 64 := by
  by_cases h : v.toNat + 4096 ≤ 2 ^ 64
  · have hle : Packing.alignUp v.toNat 4096 ≤ 2 ^ 64 - 4096 :=
      Packing.alignUp_le (by decide) (by omega)
    rw [toNat_alignUp h, Nat.mod_eq_of_lt (by omega)]
  · have hlt := v.toNat_lt
    have hup : Packing.alignUp v.toNat 4096 = 2 ^ 64 := by
      simp only [Packing.alignUp]
      omega
    have hsum : (v + kAlign - 1).toNat = v.toNat + 4095 - 2 ^ 64 := by
      have hsub : v + kAlign - 1 = v + 4095 := by grind [kAlign]
      have hconst : (4095 : UInt64).toNat = 4095 := rfl
      rw [hsub, UInt64.toNat_add, hconst]
      omega
    have hword : kAlign.toNat = 4096 := rfl
    rw [alignUp, if_neg (by decide), UInt64.toNat_mul, UInt64.toNat_div, hsum, hword, hup]
    omega

/-- Spans that are multiples of 4096 are moved as they are. -/
theorem newRel_repack_of_dvd (h : PackedFrom a start ts sizes) (hdvd : 4096 ∣ a)
    (hc : c.toNat = start) :
    (repack r fileSize c ts).1.map Move.newRel = ts.map RawTensor.relOffset := by
  induction ts generalizing start c sizes with
  | nil => rfl
  | cons t ts ih =>
    cases sizes with
    | nil => exact h.elim
    | cons n ns =>
      have hstart : t.relOffset.toNat = start := h.1
      have hrel : c = t.relOffset := UInt64.toNat_inj.mp (hc.trans hstart.symm)
      rw [repack, List.map_cons, List.map_cons, hrel]
      congr 1
      cases ts with
      | nil => rfl
      | cons t' ts =>
        have hspan : (spanTo r fileSize t (some t')).toNat = Packing.alignUp n a :=
          toNat_spanTo_some (i := 0) h rfl rfl rfl
        have hmult : 4096 ∣ (spanTo r fileSize t (some t')).toNat := by
          rw [hspan]
          exact hdvd.trans Packing.dvd_alignUp
        have hup : alignUp (spanTo r fileSize t (some t')) kAlign =
            spanTo r fileSize t (some t') := by
          have hlt := (spanTo r fileSize t (some t')).toNat_lt
          apply UInt64.toNat_inj.mp
          rw [toNat_alignUp (by omega), Packing.alignUp_of_dvd (by decide) hmult]
        have hnext : t.relOffset + spanTo r fileSize t (some t') = t'.relOffset := by
          rw [spanTo]
          grind
        apply ih h.2
        rw [List.head?_cons, hup, hnext]
        cases ns with
        | nil => exact h.2.elim
        | cons n' ns => exact h.2.1

/-- Spans padded to a finer alignment round to the sizes padded to 4096, and the sums are those of
the sizes until one wraps. -/
theorem packed_repack_iff (h : PackedFrom a start ts sizes) (ha : 0 < a) (hdvd : a ∣ 4096) :
    Packing.Packed 4096 c.toNat
        ((repack r fileSize c ts).1.map fun k => k.newRel.toNat) sizes ↔
      c.toNat + (sizes.dropLast.map fun n => Packing.alignUp n 4096).sum < 2 ^ 64 := by
  have hlt := c.toNat_lt
  induction ts generalizing start c sizes with
  | nil =>
    cases sizes with
    | nil => exact iff_of_true trivial (by simpa using hlt)
    | cons n ns => exact h.elim
  | cons t ts ih =>
    cases sizes with
    | nil => exact h.elim
    | cons n ns =>
      cases ts with
      | nil =>
        cases ns with
        | nil => exact iff_of_true ⟨rfl, trivial⟩ (by simpa using hlt)
        | cons n' ns => exact h.2.elim
      | cons t' ts =>
        cases ns with
        | nil => exact h.2.elim
        | cons n' ns =>
          have hspan : (spanTo r fileSize t (some t')).toNat = Packing.alignUp n a :=
            toNat_spanTo_some (i := 0) h rfl rfl rfl
          generalize hnext : c + alignUp (spanTo r fileSize t (some t')) kAlign = c'
          have hword : c'.toNat = (c.toNat + Packing.alignUp n 4096) % 2 ^ 64 := by
            rw [← hnext, UInt64.toNat_add, toNat_alignUp_mod, hspan,
              Packing.alignUp_alignUp ha (by decide) hdvd, Nat.add_mod_mod]
          have hrest := ih (c := c') h.2 c'.toNat_lt
          rw [List.dropLast_cons_cons, List.map_cons, List.sum_cons, ← Nat.add_assoc]
          have hstep : Packing.Packed 4096 c.toNat
              ((repack r fileSize c (t :: t' :: ts)).1.map fun k => k.newRel.toNat)
                (n :: n' :: ns) ↔ Packing.Packed 4096 (c.toNat + Packing.alignUp n 4096)
                  ((repack r fileSize c' (t' :: ts)).1.map fun k => k.newRel.toNat) (n' :: ns) := by
            rw [← hnext]
            exact and_iff_right rfl
          rw [hstep]
          by_cases hfit : c.toNat + Packing.alignUp n 4096 < 2 ^ 64
          · rw [Nat.mod_eq_of_lt hfit] at hword
            rwa [hword] at hrest
          · refine iff_of_false (fun hpacked => ?_) (by omega)
            have hfirst : c'.toNat = c.toNat + Packing.alignUp n 4096 := hpacked.1
            omega

theorem alignment_of_opened {rd : GgufReader} (h : GgufReader.open file = .ok rd) :
    ∃ k, rd.alignment.toNat = 2 ^ k := by
  obtain ⟨pos, hread⟩ := open_ok.mp h
  obtain ⟨head, mid, hhead, _⟩ := FileReader.bind_ok.mp hread
  obtain ⟨hal, _, _, rfl⟩ := (readGguf_ok hhead).mp hread
  exact (Document.invalidAlignment_iff _).mp hal

/-- The new offsets of an accepted file follow the rule, for an old alignment up to 4096 unless they
wrap, and for a coarser one if it pads every size but the last like 4096. -/
theorem followsRule_iff {rd : GgufReader} (hopen : GgufReader.open file = .ok rd)
    (h : PackedFrom rd.alignment.toNat 0 rd.tensors sizes) :
    FollowsRule file rd sizes ↔
      rd.alignment ≤ kAlign ∧ paddedBeforeLast sizes < 2 ^ 64 ∨ kAlign < rd.alignment ∧
        ∀ n ∈ sizes.dropLast, Packing.alignUp n rd.alignment.toNat =
          Packing.alignUp n kAlign.toNat := by
  obtain ⟨k, hk⟩ := alignment_of_opened hopen
  have hword : kAlign.toNat = 4096 := rfl
  have hzero : (0 : UInt64).toNat = 0 := rfl
  have hpos : 0 < rd.alignment.toNat := hk ▸ Nat.two_pow_pos k
  rw [FollowsRule, newRels, List.map_map, UInt64.le_iff_toNat_le, UInt64.lt_iff_toNat_lt, hword]
  by_cases hle : rd.alignment.toNat ≤ 4096
  · have hdvd : rd.alignment.toNat ∣ 4096 := by
      rw [hk] at hle ⊢
      exact Nat.pow_dvd_pow 2 (Nat.pow_le_pow_iff_right (by decide) |>.mp (hle.trans_eq (by decide :
        4096 = 2 ^ 12)))
    have hiff : Packing.Packed 4096 0 ((repack rd (UInt64.ofNat file.length) 0 rd.tensors).1.map
        fun k => k.newRel.toNat) sizes ↔
          0 + (sizes.dropLast.map fun n => Packing.alignUp n 4096).sum < 2 ^ 64 :=
      packed_repack_iff (c := 0) h hpos hdvd
    rw [Nat.zero_add] at hiff
    refine Iff.trans hiff ⟨fun hsum => .inl ⟨hle, hsum⟩, ?_⟩
    rintro (⟨_, hsum⟩ | ⟨hlt, _⟩)
    · exact hsum
    · omega
  · have hdvd : 4096 ∣ rd.alignment.toNat := by
      rw [hk] at hle ⊢
      have hexp : 12 ≤ k := by
        by_contra hlt
        exact hle ((Nat.pow_le_pow_right (by decide) (show k ≤ 12 by omega)).trans (by decide))
      exact Nat.pow_dvd_pow 2 hexp
    have hnew : (repack rd (UInt64.ofNat file.length) 0 rd.tensors).1.map Move.newRel =
        rd.tensors.map RawTensor.relOffset := newRel_repack_of_dvd h hdvd hzero
    have hmap := congrArg (List.map UInt64.toNat) hnew
    rw [List.map_map, List.map_map] at hmap
    rw [hmap]
    have hiff := Packing.Packed.packed_iff h 4096
    refine Iff.trans hiff ⟨fun hall => .inr ⟨not_le.mp hle, hall⟩, ?_⟩
    rintro (⟨hle', _⟩ | ⟨_, hall⟩)
    · omega
    · exact hall

end Rule

section Example

/-- Two tensors behind more than 4096 bytes of metadata. -/
def broad (alignment : Nat) (rel : UInt64) : WireFile where
  version := 3
  kvs := [⟨text "general.architecture", .string (text "a")⟩,
    ⟨text "a.block_count", .scalar .uint32 (bytes 4 1)⟩,
    ⟨alignmentKey, .scalar .uint32 (bytes 4 alignment)⟩,
    ⟨text "p", .string (List.replicate 4096 0)⟩]
  tensors := [⟨text "s", [1], 0, 0⟩, ⟨text "t", [8], 0, rel⟩]

theorem broad_ok (alignment : Nat) (rel : UInt64)
    (hal : invalidAlignment ((broad alignment rel).head.alignment 0) = false) :
    (broad alignment rel).Ok 0 := by
  have hversion : 2 ≤ (3 : UInt32).toNat ∧ (3 : UInt32).toNat ≤ 3 := by decide
  have htensors : 2 < 256 ^ 8 := by decide
  have hcount : 4 < 256 ^ 8 := by decide
  have hkey : alignmentKey.length ≤ kMaxNameLen := by decide
  have hname : (text "a").length ≤ kMaxNameLen := by decide
  have hlong : (List.replicate 4096 (0 : UInt8)).length ≤ kMaxNameLen := by
    rw [List.length_replicate]
    decide
  refine ⟨⟨hversion, htensors, hcount, ?_⟩, hal, ?_⟩
  · simp only [WireFile.head, broad, List.forall_mem_cons, List.not_mem_nil, false_imp_iff,
      implies_true, and_true]
    exact ⟨⟨by decide, hname⟩, ⟨by decide, by decide, by decide, rfl⟩,
      ⟨hkey, by decide, by decide, rfl⟩, by decide, hlong⟩
  · simp only [broad, List.forall_mem_cons, List.not_mem_nil, false_imp_iff, implies_true,
      and_true]
    have hlast : (text "t").length ≤ kMaxNameLen := by decide
    exact ⟨⟨by decide, by decide⟩, hlast, show 1 ≤ 4 by decide⟩

theorem length_head_broad (alignment : Nat) (rel : UInt64) :
    (broad alignment rel).head.spell.length = 4244 := by
  have harch : (text "general.architecture").length = 20 := rfl
  have hblocks : (text "a.block_count").length = 13 := rfl
  have hkey : alignmentKey.length = 17 := rfl
  have hone : (text "a").length = 1 ∧ (text "p").length = 1 := ⟨rfl, rfl⟩
  simp only [WireHead.spell, WireHead.header, WireHead.kvBytes, WireFile.head, broad,
    WireKv.spell, WireKv.header, WireValue.spell, spellString, List.flatMap_cons,
    List.flatMap_nil, List.length_append, List.length_replicate, List.length_nil, length_bytes,
    harch, hblocks, hkey, hone]

theorem length_spell_broad (alignment : Nat) (rel : UInt64) :
    (broad alignment rel).spell.length = 4310 := by
  have hone : (text "s").length = 1 ∧ (text "t").length = 1 := ⟨rfl, rfl⟩
  rw [WireFile.spell, List.length_append, length_head_broad]
  simp only [WireFile.tensorBytes, broad, WireTensor.spell, WireTensor.header, spellString,
    List.flatMap_cons, List.flatMap_nil, List.length_append, List.length_nil, length_bytes, hone]

theorem followsRule_broad : FollowsRule (broad 32 32).spell ((broad 32 32).reader 0) [4, 32] := by
  have hok := broad_ok 32 32 (by decide)
  have hlen : (broad 32 32).spell.length < maxOffset := by
    rw [length_spell_broad]
    decide
  have hpacked : PackedFrom ((broad 32 32).reader 0).alignment.toNat 0
      ((broad 32 32).reader 0).tensors [4, 32] := ⟨rfl, rfl, trivial⟩
  exact (followsRule_iff (open_of_wire hok List.prefix_rfl hlen) hpacked).mpr
    (.inl ⟨by decide +kernel, by decide⟩)

/-- A file of zeros behind the metadata. -/
def coarse : List UInt8 := (broad 8192 8192).spell ++ List.replicate 12106 0

theorem length_coarse : coarse.length = 16416 := by
  rw [coarse, List.length_append, List.length_replicate, length_spell_broad]

theorem parsed_coarse : Parsed coarse ((broad 8192 8192).reader 0) (broad 8192 8192) := by
  have hmax : maxOffset = 2 ^ 63 := rfl
  have hok := broad_ok 8192 8192 (by decide)
  have hpre : (broad 8192 8192).spell <+: coarse := List.prefix_append _ _
  exact ⟨open_of_wire hok hpre (by rw [length_coarse]; omega), rfl, hpre, hok⟩

theorem spell_broad : ∃ front tail : List UInt8, front.length = 123 ∧
    ∀ a, (broad a 8192).spell = front ++ (bytes 4 a ++ tail) := by
  have hkvs : ∀ a, (broad a 8192).kvs = (broad a 8192).kvs.take 2 ++
      ⟨alignmentKey, .scalar .uint32 (bytes 4 a)⟩ :: (broad a 8192).kvs.drop 3 := fun _ => rfl
  refine ⟨(broad 0 8192).upToValue ((broad 0 8192).kvs.take 2)
    ⟨alignmentKey, .scalar .uint32 (bytes 4 0)⟩,
    ((broad 0 8192).kvs.drop 3).flatMap WireKv.spell ++ (broad 0 8192).tensorBytes, rfl,
    fun a => ?_⟩
  rw [spell_split (hkvs a)]
  rfl

theorem patchAlignment_broad :
    patchAlignment ((broad 8192 8192).reader 0) (broad 8192 8192).spell =
      some (broad 4096 8192).spell := by
  have hpos : ((broad 8192 8192).reader 0).kvScalarValuePos alignmentKey = some 123 := rfl
  obtain ⟨front, tail, hfront, hspell⟩ := spell_broad
  have hstart : (123 : UInt64).toNat = front.length := hfront.symm
  rw [patchAlignment, hpos, hspell, hspell]
  simp only [hstart]
  exact Buffer.overwrite_of_length_eq _ _ _ _ rfl

theorem packedFrom_broad : PackedFrom ((broad 8192 8192).reader 0).alignment.toNat 0
    ((broad 8192 8192).reader 0).tensors [4, 32] :=
  ⟨rfl, rfl, trivial⟩

theorem dataOffset_broad : ((broad 8192 8192).reader 0).dataOffset = 8192 := by
  have hal : (broad 8192 8192).head.alignment 0 = 8192 := rfl
  rw [WireFile.reader, length_spell_broad, hal]
  rfl

/-- The first span reaches to the second tensor, 8192 bytes on. -/
theorem repack_broad : ∃ t₀ t₁ : RawTensor, t₀.relOffset = 0 ∧ t₁.relOffset = 8192 ∧
    ((broad 8192 8192).reader 0).tensors = [t₀, t₁] ∧
      repack ((broad 8192 8192).reader 0) 16416 0 [t₀, t₁] =
        ([⟨t₀, 8192, 0⟩, ⟨t₁, 32, 8192⟩], 12288) := by
  refine ⟨_, _, rfl, rfl, rfl, ?_⟩
  simp only [repack, List.head?_cons, List.head?_nil, spanTo, dataOffset_broad]
  rfl

theorem newRel_broad : (repack ((broad 8192 8192).reader 0) 16416 0
    ((broad 8192 8192).reader 0).tensors).1.map Move.newRel = [0, 8192] := by
  obtain ⟨t₀, t₁, _, _, htensors, hrepack⟩ := repack_broad
  rw [htensors, hrepack]
  rfl

theorem patchOffsets_broad :
    patchOffsets ((broad 8192 8192).reader 0)
      (repack ((broad 8192 8192).reader 0) 16416 0 ((broad 8192 8192).reader 0).tensors).1
        (broad 4096 8192).spell = some (broad 4096 8192).spell := by
  have hhead := length_head_broad 8192 8192
  have hstart := length_head_broad 4096 8192
  have hend : ((broad 8192 8192).reader 0).kvEnd.toNat ≤ 4244 := by
    rw [WireFile.reader, hhead]
    decide
  have hroom : (broad 4096 8192).spell.length < 2 ^ 64 := by
    rw [length_spell_broad]
    decide
  have hshift : 0 = (kvShift ((broad 8192 8192).reader 0)).toNat := rfl
  have hks := (map_tensor_repack ((broad 8192 8192).reader 0) 16416 0 _).trans
    (tensors_reader (broad 8192 8192))
  rw [hhead] at hks
  have hpatch := patchOffsets_spell (broad 4096 8192).head.spell hks hshift hstart hend hroom
  rw [newRel_broad] at hpatch
  exact hpatch

theorem copyData_broad : ∃ out, copyData ((broad 8192 8192).reader 0) coarse 8192
    (repack ((broad 8192 8192).reader 0) 16416 0 ((broad 8192 8192).reader 0).tensors).1
      (broad 4096 8192).spell = .ok out ∧ (broad 4096 8192).spell <+: out ∧
        out.length = 16416 := by
  obtain ⟨t₀, t₁, hrel₀, hrel₁, htensors, hrepack⟩ := repack_broad
  rw [htensors, hrepack]
  have hcopies : ∀ k ∈ [Move.mk t₀ 8192 0, Move.mk t₁ 32 8192],
      Copies ((broad 8192 8192).reader 0) coarse.length 8192 k ∧
        (8192 + k.newRel).toNat = UInt64.toNat 8192 + k.newRel.toNat := by
    simp only [List.forall_mem_cons, Copies, length_coarse, dataOffset_broad, hrel₀, hrel₁]
    decide
  have hpacked : Packing.Packed 4096 0
      ([Move.mk t₀ 8192 0, Move.mk t₁ 32 8192].map fun k => k.newRel.toNat)
      ([Move.mk t₀ 8192 0, Move.mk t₁ 32 8192].map fun k => k.span.toNat) := by
    simp only [List.map_cons, List.map_nil]
    exact ⟨rfl, rfl, trivial⟩
  have hstart : (broad 4096 8192).spell.length ≤ UInt64.toNat 8192 + 0 := by
    rw [length_spell_broad]
    decide
  obtain ⟨out, hcopied⟩ := copyData_isOk (fun k hk => (hcopies k hk).1) (broad 4096 8192).spell
  have hsum := fun k hk => (hcopies k hk).2
  refine ⟨out, hcopied, copyData_prefix hcopied hsum hpacked hstart, ?_⟩
  have hlast : [Move.mk t₀ 8192 0, Move.mk t₁ 32 8192].getLast? = some ⟨t₁, 32, 8192⟩ := rfl
  rw [copyData_end hcopied hsum hpacked hstart hlast (show (32 : UInt64) ≠ 0 by decide)]
  show UInt64.toNat 8192 + UInt64.toNat 8192 + UInt64.toNat 32 = 16416
  rfl

/-- The file is prepared, with the offsets it had. -/
theorem prepareFile_coarse : ∃ out, prepareFile 20480 coarse = .ok out := by
  have hparsed := parsed_coarse
  have hlen := length_coarse
  have hmax : maxOffset = 2 ^ 63 := rfl
  have hrun : (build 16416 (.ok ((broad 8192 8192).reader 0))).toOption.map
      (fun m => validates m ⟨(broad 4096 8192).reader 0, 16416⟩) = some true := by
    decide +kernel
  obtain ⟨m, hb, hvalid⟩ := exists_ok hrun
  have hsize : m.fileSize = 16416 := (built_of_build hb).size
  have hcursor : (repack ((broad 8192 8192).reader 0) 16416 0
      ((broad 8192 8192).reader 0).tensors).2 = 12288 := by
    obtain ⟨t₀, t₁, _, _, htensors, hrepack⟩ := repack_broad
    rw [htensors, hrepack]
  have hnew : alignUp (UInt64.ofNat (broad 4096 8192).spell.length) kAlign = 8192 := by
    rw [length_spell_broad]
    rfl
  have hsizes : ¬(8192 + 12288 : UInt64) < 16416 ∧ ¬(20480 : UInt64) < 8192 + 12288 ∧
      isOffset 8192 = true := by decide
  obtain ⟨out, hcopied, hgrow, hout⟩ := copyData_broad
  refine ⟨out, prepareFile_ok_iff.mpr ⟨(broad 4096 8192).spell, (broad 8192 8192).reader 0, m,
    hparsed.opened, ?_, sortByOffset_of_packed packedFrom_broad, ?_, ?_, ?_, ?_⟩⟩
  · rw [hlen]
    exact hb
  · have hle := hparsed.spelled.length_le
    rw [metaEnd_reader, toNat_ofNat_dword (by omega)]
    exact hle
  · rw [hparsed.take_metaEnd (by omega), hlen]
    exact ⟨_, patchAlignment_broad, patchOffsets_broad⟩
  · rw [hlen, show UInt64.ofNat 16416 = 16416 from rfl, hcursor]
    simp only [writeOut, hnew, hsize, hsizes, not_true_eq_false, if_false]
    exact hcopied
  · simp only [revalidates, hout, open_of_wire (broad_ok 4096 8192 (by decide)) hgrow (by omega)]
    exact hvalid

/-- Sizes of 4 and 32 bytes are 8192 bytes apart in what is written. -/
theorem not_followsRule :
    (∃ out, prepareFile 20480 coarse = .ok out) ∧
      PackedFrom ((broad 8192 8192).reader 0).alignment.toNat 0
        ((broad 8192 8192).reader 0).tensors [4, 32] ∧
      ¬FollowsRule coarse ((broad 8192 8192).reader 0) [4, 32] := by
  refine ⟨prepareFile_coarse, packedFrom_broad, ?_⟩
  rw [FollowsRule, newRels, length_coarse, show UInt64.ofNat 16416 = 16416 from rfl, newRel_broad]
  rintro ⟨_, hsecond, _⟩
  exact absurd hsecond (by decide)

end Example

end NotreEngine.Gguf
