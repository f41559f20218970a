import NotreEngine.Gguf.Wire

/-!
# Encoded values

Typed metadata, its encoding, and what the accessors of the reader return for it. Narrow signed
integers are read into a zeroed 64-bit variable, so negative ones come back as something else.
-/
namespace NotreEngine.Gguf

open FileReader LittleEndian

mutual

/-- A metadata value. Floats are their bits. -/
inductive Value : ValueType → Type
  | uint8 (v : UInt8) : Value .uint8
  | int8 (v : Int8) : Value .int8
  | uint16 (v : UInt16) : Value .uint16
  | int16 (v : Int16) : Value .int16
  | uint32 (v : UInt32) : Value .uint32
  | int32 (v : Int32) : Value .int32
  | float32 (word : UInt32) : Value .float32
  | bool (v : Bool) : Value .bool
  | string (s : Str) (fits : s.length ≤ kMaxNameLen) : Value .string
  | array {elem : ValueType} {n : Nat} (items : Items elem n) (fits : n < 256 ^ 8) : Value .array
  | uint64 (v : UInt64) : Value .uint64
  | int64 (v : Int64) : Value .int64
  | float64 (word : UInt64) : Value .float64

/-- The elements of an array, all of one type. -/
inductive Items : ValueType → Nat → Type
  | nil (ty : ValueType) : Items ty 0
  | cons {ty : ValueType} {n : Nat} (v : Value ty) (rest : Items ty n) : Items ty (n + 1)

end

mutual

def Value.encode : {ty : ValueType} → Value ty → List UInt8
  | _, .uint8 v => bytes 1 v.toNat
  | _, .int8 v => bytes 1 v.toUInt8.toNat
  | _, .uint16 v => bytes 2 v.toNat
  | _, .int16 v => bytes 2 v.toUInt16.toNat
  | _, .uint32 v => bytes 4 v.toNat
  | _, .int32 v => bytes 4 v.toUInt32.toNat
  | _, .float32 word => bytes 4 word.toNat
  | _, .bool v => bytes 1 v.toNat
  | _, .string s _ => bytes 8 s.length ++ s
  | _, @Value.array elem n items _ => bytes 4 elem.code ++ (bytes 8 n ++ items.encode)
  | _, .uint64 v => bytes 8 v.toNat
  | _, .int64 v => bytes 8 v.toUInt64.toNat
  | _, .float64 word => bytes 8 word.toNat

def Items.encode : {ty : ValueType} → {n : Nat} → Items ty n → List UInt8
  | _, _, .nil _ => []
  | _, _, .cons v rest => v.encode ++ rest.encode

end

namespace Value

variable {ty : ValueType}

/-- What `kv_u64` has to return. -/
def word? : {ty : ValueType} → Value ty → Option UInt64
  | _, uint8 v => some v.toUInt64
  | _, uint16 v => some v.toUInt64
  | _, uint32 v => some v.toUInt64
  | _, uint64 v => some v
  | _, bool v => some v.toUInt64
  | _, _ => none

def NegativeNarrow : {ty : ValueType} → Value ty → Prop
  | _, int8 v => v < 0
  | _, int16 v => v < 0
  | _, int32 v => v < 0
  | _, _ => False

/-- The accessor for a value of this type returns exactly the value. Floats are compared by what
they stand for. -/
def Recovered (r : GgufReader) (key : Str) : {ty : ValueType} → Value ty → Prop
  | _, uint8 v => r.kvU64 key = some v.toUInt64
  | _, uint16 v => r.kvU64 key = some v.toUInt64
  | _, uint32 v => r.kvU64 key = some v.toUInt64
  | _, uint64 v => r.kvU64 key = some v
  | _, int8 v => r.kvI64 key = some v.toInt64
  | _, int16 v => r.kvI64 key = some v.toInt64
  | _, int32 v => r.kvI64 key = some v.toInt64
  | _, int64 v => r.kvI64 key = some v
  | _, float32 word => ∃ d, r.kvF64 key = some d ∧
      Ieee.binary64.decode d.toNat = Ieee.binary32.decode word.toNat
  | _, float64 word => r.kvF64 key = some word
  | _, bool v => r.kvBool key = some v
  | _, string s _ => r.kvStr key = some s
  | _, array _ _ => r.hasKv key = false

def wire (v : Value ty) : WireValue :=
  match v with
  | string s _ => .string s
  | array items fits => .array (array items fits).encode
  | v => .scalar ty v.encode

end Value

mutual

theorem Value.skipped : {ty : ValueType} → (v : Value ty) →
    ∃ depth, Skipped depth ty.code v.encode
  | _, .uint8 _ | _, .int8 _ | _, .bool _ => ⟨0, length_bytes 1 _⟩
  | _, .uint16 _ | _, .int16 _ => ⟨0, length_bytes 2 _⟩
  | _, .uint32 _ | _, .int32 _ | _, .float32 _ => ⟨0, length_bytes 4 _⟩
  | _, .uint64 _ | _, .int64 _ | _, .float64 _ => ⟨0, length_bytes 8 _⟩
  | _, .string s fits => ⟨0, s, fits, rfl⟩
  | _, @Value.array elem n items fits => by
    obtain ⟨pieces, hn, hflat, hpieces⟩ := items.skipped
    refine ⟨items.encode.length + 1, elem.code, pieces, elem.code_lt, hn ▸ fits, ?_, ?_⟩
    · intro x hx
      obtain ⟨depth, hdepth⟩ := hpieces x hx
      exact hdepth.deep (hflat ▸ (List.sublist_flatten_of_mem hx).length_le)
    · rw [Value.encode, hflat, hn]

theorem Items.skipped : {ty : ValueType} → {n : Nat} → (items : Items ty n) →
    ∃ pieces : List (List UInt8), pieces.length = n ∧ items.encode = pieces.flatten ∧
      ∀ x ∈ pieces, ∃ depth, Skipped depth ty.code x
  | _, _, .nil _ => ⟨[], rfl, rfl, by simp⟩
  | _, _, .cons v rest => by
    obtain ⟨pieces, hn, hflat, hpieces⟩ := rest.skipped
    refine ⟨v.encode :: pieces, by rw [List.length_cons, hn], ?_, ?_⟩
    · rw [Items.encode, hflat, List.flatten_cons]
    · exact List.forall_mem_cons.mpr ⟨v.skipped, hpieces⟩

end

theorem Value.wire_ok {ty : ValueType} (v : Value ty) : v.wire.Ok := by
  cases v with
  | string s fits => exact fits
  | array items fits => exact (Value.array items fits).skipped
  | _ => exact ⟨by decide, by decide, length_bytes _ _⟩

section Recovery

variable {ty : ValueType} {r : GgufReader} {key : Str} {m : Kvs}

/-- The entries of a key that holds this value and nothing else. -/
def Value.stored : {ty : ValueType} → Value ty →
    Option UInt64 × Option Int64 × Option UInt64 × Option Str
  | _, .uint8 v => (some v.toUInt64, none, none, none)
  | _, .uint16 v => (some v.toUInt64, none, none, none)
  | _, .uint32 v => (some v.toUInt64, none, none, none)
  | _, .uint64 v => (some v, none, none, none)
  | _, .bool v => (some v.toUInt64, none, none, none)
  | _, .int8 v => (none, some v.toUInt8.toUInt64.toInt64, none, none)
  | _, .int16 v => (none, some v.toUInt16.toUInt64.toInt64, none, none)
  | _, .int32 v => (none, some v.toUInt32.toUInt64.toInt64, none, none)
  | _, .int64 v => (none, some v, none, none)
  | _, .float32 word =>
    (none, none, some (UInt64.ofNat (Ieee.binary32.widen Ieee.binary64 word.toNat)), none)
  | _, .float64 word => (none, none, some word, none)
  | _, .string s _ => (none, none, none, some s)
  | _, .array _ _ => (none, none, none, none)

theorem word_eq {k n : Nat} (word : UInt64) (hk : n < 256 ^ k) (h : n = word.toNat) :
    UInt64.ofNat (value (bytes k n)) = word := by
  rw [value_bytes_of_lt hk, h, UInt64.ofNat_toNat]

theorem entry_store (v : Value ty) (vpos : Nat) (hempty : m.entry key = (none, none, none, none)) :
    (v.wire.store key vpos m).entry key = v.stored := by
  simp only [Kvs.entry, Prod.mk.injEq] at hempty ⊢
  cases v with
  | uint8 v =>
    have hword := word_eq v.toUInt64 (k := 1) v.toNat_lt rfl
    simp [Value.wire, WireValue.store, Kvs.set, Value.encode, Value.stored, hempty, hword]
  | int8 v =>
    have hword := word_eq v.toUInt8.toUInt64 (k := 1) v.toUInt8.toNat_lt rfl
    simp [Value.wire, WireValue.store, Kvs.set, Value.encode, Value.stored, hempty, hword]
  | uint16 v =>
    have hword := word_eq v.toUInt64 (k := 2) v.toNat_lt rfl
    simp [Value.wire, WireValue.store, Kvs.set, Value.encode, Value.stored, hempty, hword]
  | int16 v =>
    have hword := word_eq v.toUInt16.toUInt64 (k := 2) v.toUInt16.toNat_lt rfl
    simp [Value.wire, WireValue.store, Kvs.set, Value.encode, Value.stored, hempty, hword]
  | uint32 v =>
    have hword := word_eq v.toUInt64 (k := 4) v.toNat_lt rfl
    simp [Value.wire, WireValue.store, Kvs.set, Value.encode, Value.stored, hempty, hword]
  | int32 v =>
    have hword := word_eq v.toUInt32.toUInt64 (k := 4) v.toUInt32.toNat_lt rfl
    simp [Value.wire, WireValue.store, Kvs.set, Value.encode, Value.stored, hempty, hword]
  | uint64 v =>
    have hword := word_eq v (k := 8) v.toNat_lt rfl
    simp [Value.wire, WireValue.store, Kvs.set, Value.encode, Value.stored, hempty, hword]
  | int64 v =>
    have hword := word_eq v.toUInt64 (k := 8) v.toUInt64.toNat_lt rfl
    simp [Value.wire, WireValue.store, Kvs.set, Value.encode, Value.stored, hempty, hword]
  | float64 word =>
    have hword := word_eq word (k := 8) word.toNat_lt rfl
    simp [Value.wire, WireValue.store, Kvs.set, Value.encode, Value.stored, hempty, hword]
  | float32 word =>
    have hvalue := value_bytes_of_lt (w := 4) word.toNat_lt
    simp [Value.wire, WireValue.store, Kvs.set, Value.encode, Value.stored, hempty, hvalue]
  | bool v =>
    have hword : UInt64.ofNat (value (bytes 1 v.toNat)) = v.toUInt64 := by
      cases v <;> rfl
    simp [Value.wire, WireValue.store, Kvs.set, Value.encode, Value.stored, hempty, hword]
  | string s fits => simp [Value.wire, WireValue.store, Value.stored, hempty]
  | array items fits => simp [Value.wire, WireValue.store, Value.stored, hempty]

theorem word_stored (v : Value ty) : v.stored.1 = v.word? := by
  cases v <;> rfl

/-- A narrow integer extended with zeros is itself unless it is negative. -/
theorem zeroExtended_iff {w : Nat} (hw : w < 64) (b : BitVec w) (word : UInt64) {x : Int64}
    (hword : word.toNat = b.toNat) (hx : x.toBitVec = b.signExtend 64) :
    word.toInt64 = x ↔ ¬b.toInt < 0 := by
  have hlt : b.toNat < 2 ^ 63 :=
    b.isLt.trans_le (Nat.pow_le_pow_right Nat.two_pos (by omega))
  have hsigned : x.toInt = b.toInt := by
    rw [← Int64.toInt_toBitVec, hx, BitVec.toInt_signExtend_of_le (by omega)]
  have hzero : word.toInt64.toInt = b.toNat := by
    rw [← Int64.toInt_toBitVec, UInt64.toBitVec_toInt64, BitVec.toInt_eq_toNat_cond,
      UInt64.toNat_toBitVec, hword, if_pos (by omega)]
  rw [← Int64.toInt_inj, hzero, hsigned, BitVec.toInt_eq_toNat_cond]
  have := b.isLt
  split <;> omega

theorem recovered_iff (v : Value ty) (hbool : r.kvB key = none)
    (hstored : (r.kvU key, r.kvI key, r.kvF key, r.kvS key) = v.stored) :
    v.Recovered r key ↔ ¬v.NegativeNarrow := by
  cases v with
  | int8 v =>
    simp only [Value.stored, Prod.mk.injEq] at hstored
    have hiff := zeroExtended_iff (by decide) v.toBitVec v.toUInt8.toUInt64 rfl
      (Int8.toBitVec_toInt64 v)
    simpa [Value.Recovered, Value.NegativeNarrow, GgufReader.kvI64, hstored,
      Int8.lt_iff_toInt_lt] using hiff
  | int16 v =>
    simp only [Value.stored, Prod.mk.injEq] at hstored
    have hiff := zeroExtended_iff (by decide) v.toBitVec v.toUInt16.toUInt64 rfl
      (Int16.toBitVec_toInt64 v)
    simpa [Value.Recovered, Value.NegativeNarrow, GgufReader.kvI64, hstored,
      Int16.lt_iff_toInt_lt] using hiff
  | int32 v =>
    simp only [Value.stored, Prod.mk.injEq] at hstored
    have hiff := zeroExtended_iff (by decide) v.toBitVec v.toUInt32.toUInt64 rfl
      (Int32.toBitVec_toInt64 v)
    simpa [Value.Recovered, Value.NegativeNarrow, GgufReader.kvI64, hstored,
      Int32.lt_iff_toInt_lt] using hiff
  | float32 word =>
    simp only [Value.stored, Prod.mk.injEq] at hstored
    have hbits : (UInt64.ofNat (Ieee.binary32.widen Ieee.binary64 word.toNat)).toNat =
        Ieee.binary32.widen Ieee.binary64 word.toNat :=
      UInt64.toNat_ofNat_of_lt' (Ieee.Format.widen_lt Ieee.Format.embeds_binary32 _)
    simp [Value.Recovered, Value.NegativeNarrow, GgufReader.kvF64, hstored, hbits,
      Ieee.Format.decode_widen Ieee.Format.embeds_binary32]
  | bool v =>
    simp only [Value.stored, Prod.mk.injEq] at hstored
    have hword : decide (v.toUInt64 = 0) = !v := by
      cases v <;> rfl
    simp [Value.Recovered, Value.NegativeNarrow, GgufReader.kvBool, hstored, hbool, hword]
  | array items fits =>
    simp only [Value.stored, Prod.mk.injEq] at hstored
    simp [Value.Recovered, Value.NegativeNarrow, GgufReader.hasKv, hstored, hbool]
  | _ =>
    simp only [Value.stored, Prod.mk.injEq] at hstored
    simp [Value.Recovered, Value.NegativeNarrow, GgufReader.kvU64, GgufReader.kvI64,
      GgufReader.kvF64, GgufReader.kvStr, hstored]

end Recovery

structure KeyValue where
  key : Str
  fits : key.length ≤ kMaxNameLen
  type : ValueType
  value : Value type

structure TensorEntry extends WireTensor where
  fits : toWireTensor.Ok

/-- The metadata of a model file. -/
structure Document where
  version : UInt32
  supported : 2 ≤ version.toNat ∧ version.toNat ≤ 3
  kvs : List KeyValue
  kvsFit : kvs.length < 256 ^ 8
  distinct : (kvs.map KeyValue.key).Nodup
  tensors : List TensorEntry
  tensorsFit : tensors.length < 256 ^ 8

namespace Document

variable (d : Document)

def wire : WireFile :=
  { version := d.version
    kvs := d.kvs.map fun kv => ⟨kv.key, kv.value.wire⟩
    tensors := d.tensors.map TensorEntry.toWireTensor }

def encode : List UInt8 := d.wire.spell

/-- An alignment that is recorded as a word is a power of two. -/
def Aligned : Prop :=
  ∀ kv ∈ d.kvs, kv.key = alignmentKey → ∀ a, kv.value.word? = some a → ∃ k, a.toNat = 2 ^ k

/-- The reader holds exactly what was encoded. -/
structure Decoded (r : GgufReader) : Prop where
  kvs : ∀ kv ∈ d.kvs, kv.value.Recovered r kv.key
  tensors : r.tensors.map (fun t => (t.name, t.dims, t.ggmlType, t.relOffset)) =
    d.tensors.map fun t => (t.name, t.dims, t.ggmlType, t.relOffset)

variable {d : Document} {data : List UInt8} {key : Str}

theorem entry_maps {kv : KeyValue} (hkv : kv ∈ d.kvs) :
    (d.wire.head.maps 0).entry kv.key = kv.value.stored := by
  obtain ⟨as, bs, hsplit⟩ := List.append_of_mem hkv
  have hdistinct := d.distinct
  rw [hsplit, List.map_append, List.map_cons, List.nodup_middle, List.nodup_cons,
    List.mem_append, not_or, List.mem_map, List.mem_map] at hdistinct
  obtain ⟨⟨has, hbs⟩, _⟩ := hdistinct
  rw [WireHead.maps, wire, WireFile.head, hsplit, List.map_append, List.map_cons, storeAll_append,
    storeAll, entry_storeAll, WireKv.store, entry_store]
  · rw [entry_storeAll]
    · rfl
    · rw [List.forall_mem_map]
      exact fun kv' hkv' heq => has ⟨kv', hkv', heq⟩
  · rw [List.forall_mem_map]
    exact fun kv' hkv' heq => hbs ⟨kv', hkv', heq⟩

theorem entry_maps_of_absent (h : ∀ kv ∈ d.kvs, kv.key ≠ key) :
    (d.wire.head.maps 0).entry key = (none, none, none, none) := by
  rw [WireHead.maps, wire, WireFile.head, entry_storeAll]
  · rfl
  · rwa [List.forall_mem_map]

theorem head_ok (d : Document) : d.wire.head.Ok := by
  refine ⟨d.supported, ?_, ?_, ?_⟩
  · exact (List.length_map _).trans_lt d.tensorsFit
  · exact (List.length_map _).trans_lt d.kvsFit
  · show ∀ kv ∈ d.kvs.map _, WireKv.Ok kv
    rw [List.forall_mem_map]
    exact fun kv _ => ⟨kv.fits, kv.value.wire_ok⟩

theorem wire_ok_iff : d.wire.Ok 0 ↔ invalidAlignment (d.wire.head.alignment 0) = false := by
  constructor
  · exact fun h => h.alignment
  · intro h
    refine ⟨d.head_ok, h, ?_⟩
    show ∀ t ∈ d.tensors.map _, WireTensor.Ok t
    rw [List.forall_mem_map]
    exact fun t _ => t.fits

theorem invalidAlignment_iff (a : UInt64) :
    invalidAlignment a = false ↔ ∃ k, a.toNat = 2 ^ k := by
  have hiff := Nat.ne_zero_and_sub_one_eq_zero_iff_isPowerOfTwo (n := a.toNat)
  rw [Nat.isPowerOfTwo] at hiff
  rw [← hiff]
  by_cases ha : a = 0
  · subst ha
    exact iff_of_false (by decide) fun h => h.1 rfl
  · have hpos : a.toNat ≠ 0 := fun h => ha (UInt64.toNat_inj.mp h)
    have hone : (1 : UInt64) ≤ a := by
      rw [UInt64.le_iff_toNat_le]
      exact Nat.one_le_iff_ne_zero.mpr hpos
    have hand : (a &&& (a - 1)).toNat = a.toNat &&& (a.toNat - 1) := by
      rw [UInt64.toNat_and, UInt64.toNat_sub_of_le _ _ hone]
      rfl
    rw [← hand, ← UInt64.toNat_zero, UInt64.toNat_inj]
    simp [invalidAlignment, ha, hpos]

theorem alignment_iff : invalidAlignment (d.wire.head.alignment 0) = false ↔ d.Aligned := by
  rw [WireHead.alignment]
  constructor
  · intro h kv hkv hkey a ha
    have hentry := congrArg Prod.fst (entry_maps hkv)
    rw [word_stored, hkey, ha] at hentry
    have hu : (d.wire.head.maps 0).u alignmentKey = some a := hentry
    rw [hu] at h
    exact (invalidAlignment_iff a).mp h
  · intro h
    by_cases hexists : ∃ kv ∈ d.kvs, kv.key = alignmentKey
    · obtain ⟨kv, hkv, hkey⟩ := hexists
      have hentry := congrArg Prod.fst (entry_maps hkv)
      rw [word_stored, hkey] at hentry
      have hu : (d.wire.head.maps 0).u alignmentKey = kv.value.word? := hentry
      rw [hu]
      cases hword : kv.value.word? with
      | none => rfl
      | some a => exact (invalidAlignment_iff a).mpr (h kv hkv hkey a hword)
    · have hentry := congrArg Prod.fst
        (entry_maps_of_absent fun kv hkv hkey => hexists ⟨kv, hkv, hkey⟩)
      have hu : (d.wire.head.maps 0).u alignmentKey = none := hentry
      rw [hu]
      rfl

theorem recovered_iff_of_mem {kv : KeyValue} (hkv : kv ∈ d.kvs) :
    kv.value.Recovered (d.wire.reader 0) kv.key ↔ ¬kv.value.NegativeNarrow :=
  recovered_iff kv.value rfl (entry_maps hkv)

theorem listed_tensors (d : Document) :
    (d.wire.reader 0).tensors.map (fun t => (t.name, t.dims, t.ggmlType, t.relOffset)) =
      d.tensors.map fun t => (t.name, t.dims, t.ggmlType, t.relOffset) := by
  have hmap := map_located WireTensor.spell
    (f := fun pos t => t.raw pos) (g := fun t => (t.name, t.dims, t.ggmlType, t.relOffset))
    (h := fun t => (t.name, t.dims, t.ggmlType, t.relOffset)) (fun _ _ => rfl)
    (0 + d.wire.head.spell.length) d.wire.tensors
  refine hmap.trans ?_
  rw [wire, List.map_map]
  rfl

/-- The reader gives back what was encoded, as long as no narrow integer is negative. -/
theorem open_encode_iff (d : Document) (data : List UInt8)
    (hlen : (d.encode ++ data).length < maxOffset) :
    (∃ r, GgufReader.open (d.encode ++ data) = .ok r ∧ d.Decoded r) ↔
      d.Aligned ∧ ∀ kv ∈ d.kvs, ¬kv.value.NegativeNarrow := by
  have hpre : d.wire.spell <+: d.encode ++ data := List.prefix_append _ _
  constructor
  · rintro ⟨r, hopen, hdecoded⟩
    have hal := alignment_of_open d.head_ok ((List.prefix_append _ _).trans hpre) hlen hopen
    rw [open_of_wire (wire_ok_iff.mpr hal) hpre hlen] at hopen
    cases hopen
    exact ⟨alignment_iff.mp hal, fun kv hkv => (recovered_iff_of_mem hkv).mp (hdecoded.kvs kv hkv)⟩
  · rintro ⟨hal, hneg⟩
    refine ⟨_, open_of_wire (wire_ok_iff.mpr (alignment_iff.mpr hal)) hpre hlen, ?_, ?_⟩
    · exact fun kv hkv => (recovered_iff_of_mem hkv).mpr (hneg kv hkv)
    · exact d.listed_tensors

theorem supported_three : 2 ≤ (3 : UInt32).toNat ∧ (3 : UInt32).toNat ≤ 3 := by decide

theorem fits_letter : (text "a").length ≤ kMaxNameLen := by decide

/-- What the small files below name their architecture. -/
def architecture : KeyValue :=
  ⟨text "general.architecture", by decide, .string, .string (text "a") fits_letter⟩

def blockCount : KeyValue := ⟨text "a.block_count", by decide, .uint32, .uint32 1⟩

/-- An array of an array and a tensor. -/
def nested : Document :=
  { version := 3
    supported := supported_three
    kvs := [⟨text "a", fits_letter, .array,
      .array (.cons (.array (.cons (.int8 (-1)) (.nil _)) (by decide)) (.nil _)) (by decide)⟩]
    kvsFit := by decide
    distinct := by decide
    tensors := [⟨⟨text "t", [2, 3], 0, 64⟩, ⟨by decide, by decide⟩⟩]
    tensorsFit := by decide }

theorem open_encode_nested :
    ∃ r, GgufReader.open (nested.encode ++ []) = .ok r ∧ nested.Decoded r := by
  apply (open_encode_iff nested [] (by decide)).mpr
  constructor
  · intro kv hkv hkey
    obtain rfl := List.mem_singleton.mp hkv
    exact absurd hkey (by decide)
  · intro kv hkv
    obtain rfl := List.mem_singleton.mp hkv
    exact id

/-- An INT8 of `-1`. -/
def negativeByte : Document :=
  { version := 3
    supported := supported_three
    kvs := [⟨text "a", fits_letter, .int8, .int8 (-1)⟩]
    kvsFit := by decide
    distinct := by decide
    tensors := []
    tensorsFit := by decide }

theorem open_encode_negativeByte :
    ∃ r, GgufReader.open negativeByte.encode = .ok r ∧ r.kvI64 (text "a") = some 255 ∧
      ¬negativeByte.Decoded r := by
  refine ⟨_, rfl, rfl, fun h => ?_⟩
  have hbyte : some (255 : Int64) = some (Int8.toInt64 (-1)) := h.kvs _ List.mem_cons_self
  exact absurd hbyte (by decide)

end Document

end NotreEngine.Gguf
