import NotreEngine.Gguf.Reader

/-!
# The bytes of a model file

What `GgufReader::open` accepts, as a grammar, and what the reader then holds, as a function of the
parsed items and their positions.
-/
namespace NotreEngine.Gguf

open FileReader Reader LittleEndian

section Grammar

def spellString (s : Str) : List UInt8 := bytes 8 s.length ++ s

/-- Bytes of one value of type code `t`, nested at most `depth` deep. -/
def Skipped : Nat → Nat → List UInt8 → Prop
  | depth, t, bs =>
    match ValueType.ofCode? t with
    | none => False
    | some .string => ∃ s : Str, s.length ≤ kMaxNameLen ∧ bs = spellString s
    | some .array =>
      match depth with
      | 0 => False
      | depth + 1 => ∃ (elem : Nat) (items : List (List UInt8)), elem < 256 ^ 4 ∧
          items.length < 256 ^ 8 ∧ (∀ x ∈ items, Skipped depth elem x) ∧
          bs = bytes 4 elem ++ (bytes 8 items.length ++ items.flatten)
    | some ty => bs.length = ty.scalarSize

inductive WireValue where
  | scalar (ty : ValueType) (bs : List UInt8)
  | string (s : Str)
  | array (bs : List UInt8)

def WireValue.type : WireValue → ValueType
  | scalar ty _ => ty
  | string _ => .string
  | array _ => .array

def WireValue.spell : WireValue → List UInt8
  | scalar _ bs => bs
  | string s => spellString s
  | array bs => bs

def WireValue.Ok : WireValue → Prop
  | scalar ty bs => ty ≠ .string ∧ ty ≠ .array ∧ bs.length = ty.scalarSize
  | string s => s.length ≤ kMaxNameLen
  | array bs => ∃ depth, Skipped depth ValueType.array.code bs

/-- What the reader does with a value at `vpos`. -/
def WireValue.store (key : Str) (vpos : Nat) (m : Kvs) : WireValue → Kvs
  | scalar ty bs => m.set key ty vpos bs
  | string s => { m with s := Function.update m.s key (some s) }
  | array _ => m

structure WireKv where
  key : Str
  value : WireValue

namespace WireKv

variable (kv : WireKv)

def header : List UInt8 := spellString kv.key ++ bytes 4 kv.value.type.code

def spell : List UInt8 := kv.header ++ kv.value.spell

structure Ok : Prop where
  key : kv.key.length ≤ kMaxNameLen
  value : kv.value.Ok

def store (pos : Nat) (kv : WireKv) (m : Kvs) : Kvs :=
  kv.value.store kv.key (pos + kv.header.length) m

/-- A scalar of the same width is as good. -/
theorem ok_replace {pre post : List WireKv} {key : Str} {ty : ValueType} {bs bs' : List UInt8}
    (hlen : bs'.length = bs.length) (h : ∀ kv ∈ pre ++ ⟨key, .scalar ty bs⟩ :: post, kv.Ok) :
    ∀ kv ∈ pre ++ ⟨key, .scalar ty bs'⟩ :: post, kv.Ok := by
  rw [List.forall_mem_append, List.forall_mem_cons] at h ⊢
  obtain ⟨hpre, ⟨hkey, hstring, harray, hsize⟩, hpost⟩ := h
  exact ⟨hpre, ⟨hkey, hstring, harray, hlen.trans hsize⟩, hpost⟩

end WireKv

structure WireTensor where
  name : Str
  dims : List UInt64
  ggmlType : UInt32
  relOffset : UInt64

namespace WireTensor

variable (t : WireTensor)

def header : List UInt8 :=
  spellString t.name ++ bytes 4 t.dims.length ++ t.dims.flatMap (fun d => bytes 8 d.toNat) ++
    bytes 4 t.ggmlType.toNat

def spell : List UInt8 := t.header ++ bytes 8 t.relOffset.toNat

structure Ok : Prop where
  name : t.name.length ≤ kMaxNameLen
  dims : t.dims.length ≤ 4

def raw (pos : Nat) : RawTensor :=
  { name := t.name
    dims := t.dims
    ggmlType := t.ggmlType
    relOffset := t.relOffset
    offsetFieldPos := UInt64.ofNat (pos + t.header.length) }

end WireTensor

/-- The metadata before the tensors. -/
structure WireHead where
  version : UInt32
  nTensors : Nat
  kvs : List WireKv

namespace WireHead

variable (w : WireHead)

def header : List UInt8 :=
  bytes 4 kGgufMagic ++ bytes 4 w.version.toNat ++ bytes 8 w.nTensors ++ bytes 8 w.kvs.length

def kvBytes : List UInt8 := w.kvs.flatMap WireKv.spell

def spell : List UInt8 := w.header ++ w.kvBytes

structure Ok : Prop where
  version : 2 ≤ w.version.toNat ∧ w.version.toNat ≤ 3
  nTensors : w.nTensors < 256 ^ 8
  count : w.kvs.length < 256 ^ 8
  kvs : ∀ kv ∈ w.kvs, kv.Ok

def maps (pos : Nat) : Kvs := storeAll WireKv.spell WireKv.store (pos + w.header.length) w.kvs {}

def alignment (pos : Nat) : UInt64 := ((w.maps pos).u alignmentKey).getD 32

end WireHead

structure WireFile where
  version : UInt32
  kvs : List WireKv
  tensors : List WireTensor

namespace WireFile

variable (w : WireFile)

def head : WireHead := ⟨w.version, w.tensors.length, w.kvs⟩

def tensorBytes : List UInt8 := w.tensors.flatMap WireTensor.spell

def spell : List UInt8 := w.head.spell ++ w.tensorBytes

structure Ok (pos : Nat) : Prop where
  head : w.head.Ok
  alignment : invalidAlignment (w.head.alignment pos) = false
  tensors : ∀ t ∈ w.tensors, t.Ok

def rawTensors (pos : Nat) : List RawTensor :=
  located WireTensor.spell (fun pos t => t.raw pos) (pos + w.head.spell.length) w.tensors

/-- What `open` leaves in the reader. -/
def reader (pos : Nat) : GgufReader :=
  { version := w.version
    dataOffset := alignUp (UInt64.ofNat (pos + w.spell.length)) (w.head.alignment pos)
    metaEnd := UInt64.ofNat (pos + w.spell.length)
    kvEnd := UInt64.ofNat (pos + w.head.spell.length)
    alignment := w.head.alignment pos
    kvU := (w.head.maps pos).u
    kvI := (w.head.maps pos).i
    kvF := (w.head.maps pos).f
    kvS := (w.head.maps pos).s
    kvB := fun _ => none
    kvPos := (w.head.maps pos).pos
    tensors := w.rawTensors pos }

end WireFile

end Grammar

section Entries

variable {m : Kvs} {key : Str}

/-- What the maps hold for a key. -/
def Kvs.entry (m : Kvs) (key : Str) :
    Option UInt64 × Option Int64 × Option UInt64 × Option Str :=
  (m.u key, m.i key, m.f key, m.s key)

theorem WireKv.entry_store_of_ne {kv : WireKv} (pos : Nat) (h : kv.key ≠ key) :
    (kv.store pos m).entry key = m.entry key := by
  obtain ⟨k, v⟩ := kv
  have hupdate : ∀ {β : Type} (f : Str → β) (b : β), Function.update f k b key = f key :=
    fun f b => Function.update_of_ne h.symm b f
  cases v with
  | scalar ty bs =>
    cases ty <;> simp [WireKv.store, WireValue.store, Kvs.set, Kvs.entry, hupdate]
  | string s => simp [WireKv.store, WireValue.store, Kvs.entry, hupdate]
  | array bs => rfl

/-- Other keys leave the entries of a key alone. -/
theorem entry_storeAll {kvs : List WireKv} (pos : Nat) (h : ∀ kv ∈ kvs, kv.key ≠ key) :
    (storeAll WireKv.spell WireKv.store pos kvs m).entry key = m.entry key := by
  induction kvs generalizing pos m with
  | nil => rfl
  | cons kv kvs ih =>
    obtain ⟨hkv, hkvs⟩ := List.forall_mem_cons.mp h
    rw [storeAll, ih _ hkvs, WireKv.entry_store_of_ne pos hkv]

end Entries

section Accepted

theorem accepts_readString :
    Accepts readString fun _ s bs => s.length ≤ kMaxNameLen ∧ bs = spellString s := by
  refine ((Accepts.number 8 _).bind fun len =>
    (Accepts.take len (text "eof in string body")).check (text "string too long")).congr
      fun pos s bs => ?_
  constructor
  · rintro ⟨_, _, _, rfl, ⟨_, rfl⟩, hlen, rfl, rfl⟩
    exact ⟨Nat.not_lt.mp hlen, rfl⟩
  · rintro ⟨hlen, rfl⟩
    exact ⟨_, _, _, rfl, ⟨hlen.trans_lt (by decide), rfl⟩, Nat.not_lt.mpr hlen, rfl, rfl⟩

theorem accepts_skipString :
    Accepts (do let _ ← readString; return ()) fun _ (_ : Unit) bs =>
      ∃ s : Str, s.length ≤ kMaxNameLen ∧ bs = spellString s := by
  refine (accepts_readString.bind fun _ => Accepts.pure ()).congr fun pos u bs => ?_
  constructor
  · rintro ⟨s, _, _, rfl, ⟨hlen, rfl⟩, _, rfl⟩
    exact ⟨s, hlen, List.append_nil _⟩
  · rintro ⟨s, hlen, rfl⟩
    exact ⟨s, _, [], (List.append_nil _).symm, ⟨hlen, rfl⟩, rfl, rfl⟩

theorem accepts_skipItems {depth elem : Nat}
    (h : Accepts (skipValue depth elem) fun _ _ bs => Skipped depth elem bs) (count : Nat) :
    Accepts (iterate (fun _ => skipValue depth elem) count ()) fun _ _ bs =>
      ∃ items : List (List UInt8), items.length = count ∧ (∀ x ∈ items, Skipped depth elem x) ∧
        bs = items.flatten := by
  have hstep : ∀ s : Unit, Accepts (skipValue depth elem) fun pos s' bs =>
      ∃ x, Skipped depth elem x ∧ bs = id x ∧ s' = (fun _ _ _ => ()) pos x s := by
    intro _
    refine h.congr fun pos _ bs => ?_
    constructor
    · exact fun hbs => ⟨bs, hbs, rfl, rfl⟩
    · rintro ⟨_, hx, rfl, _⟩
      exact hx
  refine (Accepts.iterate hstep count ()).congr fun pos _ bs => ?_
  simp only [List.flatMap_id, and_true]

theorem accepts_skipValue (depth t : Nat) :
    Accepts (skipValue depth t) fun _ _ bs => Skipped depth t bs := by
  induction depth generalizing t with
  | zero =>
    cases hty : ValueType.ofCode? t with
    | none =>
      simp only [skipValue, Skipped, hty]
      exact Accepts.fail _
    | some ty =>
      cases ty <;> simp only [skipValue, Skipped, hty]
      case string => exact accepts_skipString
      case array => exact Accepts.fail _
      all_goals exact Accepts.skip _ _
  | succ depth ih =>
    cases hty : ValueType.ofCode? t with
    | none =>
      simp only [skipValue, Skipped, hty]
      exact Accepts.fail _
    | some ty =>
      cases ty <;> simp only [skipValue, Skipped, hty]
      case string => exact accepts_skipString
      case array =>
        refine ((Accepts.number 4 _).bind fun elem => (Accepts.number 8 _).bind
          fun count => accepts_skipItems (ih elem) count).congr fun pos u bs => ?_
        constructor
        · rintro ⟨elem, _, _, rfl, ⟨helem, rfl⟩, _, _, _, rfl, ⟨hcount, rfl⟩, items, rfl, hitems, rfl⟩
          exact ⟨elem, items, helem, hcount, hitems, rfl⟩
        · rintro ⟨elem, items, helem, hcount, hitems, rfl⟩
          exact ⟨elem, _, _, rfl, ⟨helem, rfl⟩, _, _, _, rfl, ⟨hcount, rfl⟩, items, rfl, hitems, rfl⟩
      all_goals exact Accepts.skip _ _

/-- Nested values lie inside one another, so no value is nested deeper than it is long. -/
theorem Skipped.deep {n m t : Nat} {bs : List UInt8} (h : Skipped n t bs) (hm : bs.length ≤ m) :
    Skipped m t bs := by
  induction n generalizing m t bs with
  | zero =>
    cases hty : ValueType.ofCode? t with
    | none =>
      simp only [Skipped, hty] at h
    | some ty =>
      cases ty <;> simp only [Skipped, hty] at h <;> cases m <;> simpa only [Skipped, hty] using h
  | succ n ih =>
    cases hty : ValueType.ofCode? t with
    | none =>
      simp only [Skipped, hty] at h
    | some ty =>
      cases ty <;> simp only [Skipped, hty] at h
      case array =>
        obtain ⟨elem, items, helem, hcount, hitems, rfl⟩ := h
        rw [List.length_append, List.length_append, length_bytes, length_bytes] at hm
        cases m with
        | zero => omega
        | succ m =>
          simp only [Skipped, hty]
          refine ⟨elem, items, helem, hcount, fun x hx => ih (hitems x hx) ?_, rfl⟩
          have := (List.sublist_flatten_of_mem hx).length_le
          omega
      all_goals cases m <;> simpa only [Skipped, hty] using h

theorem accepts_parseString (m : Kvs) (key : Str) :
    Accepts (parseValue m key ValueType.string.code) fun pos m' bs =>
      ∃ v : WireValue, v.Ok ∧ v.type = .string ∧ bs = v.spell ∧ m' = v.store key pos m := by
  refine (accepts_readString.bind fun s => Accepts.pure _).congr fun pos m' bs => ?_
  constructor
  · rintro ⟨s, _, _, rfl, ⟨hlen, rfl⟩, rfl, rfl⟩
    exact ⟨.string s, hlen, rfl, List.append_nil _, rfl⟩
  · rintro ⟨v, hok, htype, rfl, rfl⟩
    cases v with
    | scalar ty bs => exact absurd htype hok.1
    | string s => exact ⟨s, _, [], (List.append_nil _).symm, ⟨hok, rfl⟩, rfl, rfl⟩
    | array bs => cases htype

theorem accepts_parseArray (m : Kvs) (key : Str) :
    Accepts (parseValue m key ValueType.array.code) fun pos m' bs =>
      ∃ v : WireValue, v.Ok ∧ v.type = .array ∧ bs = v.spell ∧ m' = v.store key pos m := by
  refine ((Accepts.sized (fun depth => accepts_skipValue depth _) Skipped.deep).bind
    fun _ => Accepts.pure _).congr fun pos m' bs => ?_
  constructor
  · rintro ⟨_, bs, _, rfl, hbs, rfl, rfl⟩
    exact ⟨.array bs, hbs, rfl, List.append_nil _, rfl⟩
  · rintro ⟨v, hok, htype, rfl, rfl⟩
    cases v with
    | scalar ty bs => exact absurd htype hok.2.1
    | string s => cases htype
    | array bs => exact ⟨(), _, [], (List.append_nil _).symm, hok, rfl, rfl⟩

theorem accepts_parseScalar (m : Kvs) (key : Str) {ty : ValueType} (hstring : ty ≠ .string)
    (harray : ty ≠ .array) :
    Accepts (parseValue m key ty.code) fun pos m' bs =>
      ∃ v : WireValue, v.Ok ∧ v.type = ty ∧ bs = v.spell ∧ m' = v.store key pos m := by
  have hparse : parseValue m key ty.code = do
      let vpos ← tell
      let bs ← take ty.scalarSize ty.eof
      return m.set key ty vpos bs := by
    cases ty <;> first | rfl | contradiction
  rw [hparse]
  refine (Accepts.tell.bind fun vpos => (Accepts.take _ _).bind
    fun bs => Accepts.pure _).congr fun pos m' bs => ?_
  constructor
  · rintro ⟨_, _, _, rfl, ⟨rfl, rfl⟩, bs, _, _, rfl, ⟨rfl, hlen⟩, rfl, rfl⟩
    exact ⟨.scalar ty bs, ⟨hstring, harray, hlen⟩, rfl, List.append_nil _, rfl⟩
  · rintro ⟨v, hok, rfl, rfl, rfl⟩
    cases v with
    | scalar ty bs =>
      exact ⟨pos, [], bs, rfl, ⟨rfl, rfl⟩, bs, bs, [], (List.append_nil _).symm, ⟨rfl, hok.2.2⟩,
        rfl, rfl⟩
    | string s => exact absurd rfl hstring
    | array bs => exact absurd rfl harray

theorem accepts_parseValue (m : Kvs) (key : Str) (type : Nat) :
    Accepts (parseValue m key type) fun pos m' bs =>
      ∃ v : WireValue, v.Ok ∧ v.type.code = type ∧ bs = v.spell ∧ m' = v.store key pos m := by
  cases hty : ValueType.ofCode? type with
  | none =>
    simp only [parseValue, hty]
    refine (Accepts.fail _).congr fun pos m' bs => iff_of_false id ?_
    rintro ⟨v, _, hcode, _⟩
    rw [ValueType.ofCode?_eq_some.mpr hcode.symm] at hty
    cases hty
  | some ty =>
    obtain rfl := ValueType.ofCode?_eq_some.mp hty
    have hcode : ∀ v : WireValue, v.type.code = ty.code ↔ v.type = ty := by
      intro v
      rw [eq_comm, ← ValueType.ofCode?_eq_some, hty, Option.some.injEq, eq_comm]
    simp only [hcode]
    by_cases hstring : ty = .string
    · subst hstring
      exact accepts_parseString m key
    · by_cases harray : ty = .array
      · subst harray
        exact accepts_parseArray m key
      · exact accepts_parseScalar m key hstring harray

theorem accepts_parseKv (m : Kvs) :
    Accepts (parseKv m) fun pos m' bs =>
      ∃ kv : WireKv, kv.Ok ∧ bs = kv.spell ∧ m' = kv.store pos m := by
  refine ((accepts_readString.mapError _).bind fun key => (Accepts.number 4 _).bind
    fun type => accepts_parseValue m key type).congr fun pos m' bs => ?_
  constructor
  · rintro ⟨key, _, _, rfl, ⟨hkey, rfl⟩, _, _, _, rfl, ⟨_, rfl⟩, v, hv, rfl, rfl, rfl⟩
    refine ⟨⟨key, v⟩, ⟨hkey, hv⟩, ?_, ?_⟩
    · simp only [WireKv.spell, WireKv.header, List.append_assoc]
    · simp only [WireKv.store, WireKv.header, List.length_append, Nat.add_assoc]
  · rintro ⟨⟨key, v⟩, ⟨hkey, hv⟩, rfl, rfl⟩
    refine ⟨key, _, _, ?_, ⟨hkey, rfl⟩, _, _, _, rfl, ⟨v.type.code_lt, rfl⟩, v, hv, rfl, rfl, ?_⟩
    · simp only [WireKv.spell, WireKv.header, List.append_assoc]
    · simp only [WireKv.store, WireKv.header, List.length_append, Nat.add_assoc]

theorem toNat_ofNat_dword {n : Nat} (h : n < 256 ^ 8) : (UInt64.ofNat n).toNat = n :=
  UInt64.toNat_ofNat_of_lt' h

theorem dword_lt (d : UInt64) : d.toNat < 256 ^ 8 := d.toNat_lt

theorem accepts_dims (n : Nat) (e : Str) :
    Accepts (iterate (fun dims => do
      let d ← number 8 e
      return dims ++ [UInt64.ofNat d]) n []) fun _ dims bs =>
        dims.length = n ∧ bs = dims.flatMap fun d => bytes 8 d.toNat := by
  have hstep : ∀ dims : List UInt64, Accepts (do
      let d ← number 8 e
      return dims ++ [UInt64.ofNat d]) fun pos dims' bs =>
        ∃ d : UInt64, True ∧ bs = bytes 8 d.toNat ∧
          dims' = (fun pos d dims => dims ++ [(fun _ => id) pos d]) pos d dims := by
    intro dims
    refine ((Accepts.number 8 e).bind fun d => Accepts.pure _).congr fun pos dims' bs => ?_
    constructor
    · rintro ⟨d, _, _, rfl, ⟨hd, rfl⟩, rfl, rfl⟩
      exact ⟨UInt64.ofNat d, trivial, by rw [toNat_ofNat_dword hd, List.append_nil], rfl⟩
    · rintro ⟨d, _, rfl, rfl⟩
      exact ⟨d.toNat, _, [], (List.append_nil _).symm, ⟨dword_lt d, rfl⟩,
        by rw [UInt64.ofNat_toNat]; rfl, rfl⟩
  refine (Accepts.iterate hstep n []).congr fun pos dims bs => ?_
  simp only [storeAll_push, located_map, List.map_id, List.nil_append]
  constructor
  · rintro ⟨ds, hlen, _, rfl, rfl⟩
    exact ⟨hlen, rfl⟩
  · rintro ⟨hlen, rfl⟩
    exact ⟨dims, hlen, by simp, rfl, rfl⟩

theorem accepts_parseTensor (tensors : List RawTensor) :
    Accepts (parseTensor tensors) fun pos tensors' bs =>
      ∃ t : WireTensor, t.Ok ∧ bs = t.spell ∧ tensors' = tensors ++ [t.raw pos] := by
  refine ((accepts_readString.mapError _).bind fun name => (Accepts.number 4 _).bind fun nDims =>
    ((accepts_dims nDims _).bind fun dims => (Accepts.number 4 _).bind fun ggmlType =>
      Accepts.tell.bind fun fpos => (Accepts.number 8 _).bind fun rel =>
        Accepts.pure _).check _).congr fun pos tensors' bs => ?_
  constructor
  · rintro ⟨name, _, _, rfl, ⟨hname, rfl⟩, n, _, _, rfl, ⟨hn, rfl⟩, hle, dims, _, _, rfl,
      ⟨rfl, rfl⟩, ty, _, _, rfl, ⟨hty, rfl⟩, _, _, _, rfl, ⟨rfl, rfl⟩, rel, _, _, rfl,
      ⟨hrel, rfl⟩, rfl, rfl⟩
    refine ⟨⟨name, dims, UInt32.ofNat ty, UInt64.ofNat rel⟩, ⟨hname, Nat.not_lt.mp hle⟩, ?_, ?_⟩
    · simp only [WireTensor.spell, WireTensor.header, List.append_assoc, toNat_ofNat_dword hrel,
        UInt32.toNat_ofNat_of_lt' hty, List.nil_append, List.append_nil]
    · simp only [WireTensor.raw, WireTensor.header, List.length_append, Nat.add_assoc,
        UInt32.toNat_ofNat_of_lt' hty]
  · rintro ⟨t, ⟨hname, hdims⟩, rfl, rfl⟩
    refine ⟨t.name, _, _, ?_, ⟨hname, rfl⟩, t.dims.length, _, _, rfl, ⟨by omega, rfl⟩,
      Nat.not_lt.mpr hdims, t.dims, _, _, rfl, ⟨rfl, rfl⟩, t.ggmlType.toNat, _, _, rfl,
      ⟨t.ggmlType.toNat_lt, rfl⟩, _, [], _, rfl, ⟨rfl, rfl⟩, t.relOffset.toNat,
      bytes 8 t.relOffset.toNat, [], (List.append_nil _).symm, ⟨dword_lt _, rfl⟩, ?_, rfl⟩
    · simp only [WireTensor.spell, WireTensor.header, List.append_assoc, List.nil_append]
    · simp only [WireTensor.raw, WireTensor.header, List.length_append, Nat.add_assoc,
        UInt32.ofNat_toNat, UInt64.ofNat_toNat]

theorem accepts_parseKvs (n : Nat) :
    Accepts (parseKvs n) fun pos m bs => ∃ kvs : List WireKv, kvs.length = n ∧
      (∀ kv ∈ kvs, kv.Ok) ∧ bs = kvs.flatMap WireKv.spell ∧
      m = storeAll WireKv.spell WireKv.store pos kvs {} :=
  Accepts.iterate accepts_parseKv n {}

theorem accepts_parseTensorDir (n : Nat) :
    Accepts (parseTensorDir n) fun pos tensors bs => ∃ ts : List WireTensor, ts.length = n ∧
      (∀ t ∈ ts, t.Ok) ∧ bs = ts.flatMap WireTensor.spell ∧
      tensors = located WireTensor.spell (fun pos t => t.raw pos) pos ts := by
  refine (Accepts.iterate accepts_parseTensor n []).congr fun pos tensors bs => ?_
  simp only [storeAll_push, List.nil_append]

theorem accepts_readHead :
    Accepts readHead fun pos head bs => ∃ w : WireHead, w.Ok ∧ bs = w.spell ∧
      head = ⟨w.version, w.nTensors, w.maps pos, pos + w.spell.length⟩ := by
  refine ((Accepts.number 4 _).bind fun magic => ((Accepts.number 4 _).bind fun version =>
    ((Accepts.number 8 _).bind fun nTensors => (Accepts.number 8 _).bind fun nKv =>
      (accepts_parseKvs nKv).bind fun kvs => Accepts.tell.bind fun kvEnd =>
        Accepts.pure _).check _).check _).congr fun pos head bs => ?_
  constructor
  · rintro ⟨magic, _, _, rfl, ⟨_, rfl⟩, hmagic, version, _, _, rfl, ⟨hv, rfl⟩, hversion, n, _, _,
      rfl, ⟨hn, rfl⟩, _, _, _, rfl, ⟨hcount, rfl⟩, m, _, _, rfl, ⟨kvs, rfl, hkvs, rfl, hm⟩, _, _, _,
      rfl, ⟨rfl, rfl⟩, rfl, rfl⟩
    obtain rfl := not_not.mp hmagic
    have hword : (UInt32.ofNat version).toNat = version := UInt32.toNat_ofNat_of_lt' hv
    refine ⟨⟨UInt32.ofNat version, n, kvs⟩, ⟨by rw [hword]; omega, hn, hcount, hkvs⟩, ?_, ?_⟩
    · simp only [WireHead.spell, WireHead.header, WireHead.kvBytes, hword, List.append_assoc,
        List.append_nil]
    · simp only [hm, WireHead.maps, WireHead.spell, WireHead.header, WireHead.kvBytes, hword,
        List.length_append, Nat.add_assoc]
  · rintro ⟨w, hok, rfl, rfl⟩
    have hversion := hok.version
    refine ⟨kGgufMagic, _, _, ?_, ⟨by decide, rfl⟩, not_not.mpr rfl, w.version.toNat, _, _, rfl,
      ⟨w.version.toNat_lt, rfl⟩, by omega, w.nTensors, _, _, rfl, ⟨hok.nTensors, rfl⟩,
      w.kvs.length, _, _, rfl, ⟨hok.count, rfl⟩, w.maps pos, w.kvBytes, [],
      (List.append_nil _).symm, ⟨w.kvs, rfl, hok.kvs, rfl, ?_⟩, _, [], [], rfl, ⟨rfl, rfl⟩, ?_, rfl⟩
    · simp only [WireHead.spell, WireHead.header, List.append_assoc]
    · simp only [WireHead.maps, WireHead.header, List.length_append, Nat.add_assoc]
    · simp only [WireHead.spell, WireHead.header, List.length_append, Nat.add_assoc,
        UInt32.ofNat_toNat]

theorem accepts_readGguf :
    Accepts readGguf fun pos r bs => ∃ w : WireFile, w.Ok pos ∧ bs = w.spell ∧ r = w.reader pos := by
  refine (accepts_readHead.bind fun head => ((accepts_parseTensorDir head.nTensors).bind
    fun tensors => Accepts.tell.bind fun metaEnd => Accepts.pure _).check _).congr
      fun pos r bs => ?_
  constructor
  · rintro ⟨_, _, _, rfl, ⟨h, hok, rfl, rfl⟩, hal, _, _, _, rfl, ⟨ts, hlen, hts, rfl, rfl⟩, _, _, _,
      rfl, ⟨rfl, rfl⟩, rfl, rfl⟩
    obtain ⟨w, rfl, rfl⟩ : ∃ w : WireFile, h = w.head ∧ ts = w.tensors := by
      obtain ⟨version, n, kvs⟩ := h
      exact ⟨⟨version, kvs, ts⟩, by rw [WireFile.head, hlen], rfl⟩
    refine ⟨w, ⟨hok, Bool.eq_false_iff.mpr hal, hts⟩, ?_, ?_⟩
    · simp only [WireFile.spell, WireFile.tensorBytes, List.append_nil]
    · simp only [WireFile.reader, WireFile.spell, WireFile.tensorBytes, WireFile.rawTensors,
        List.length_append, Nat.add_assoc]
      rfl
  · rintro ⟨w, hok, rfl, rfl⟩
    refine ⟨_, _, _, rfl, ⟨w.head, hok.head, rfl, rfl⟩, Bool.eq_false_iff.mp hok.alignment,
      w.rawTensors pos, w.tensorBytes, [], (List.append_nil _).symm,
      ⟨w.tensors, rfl, hok.tensors, rfl, rfl⟩, _, [], [], rfl, ⟨rfl, rfl⟩, ?_, rfl⟩
    simp only [WireFile.reader, WireFile.spell, List.length_append, Nat.add_assoc]
    rfl

theorem readGguf_metaEnd {file : List UInt8} {pos pos' : Nat} {r : GgufReader}
    (h : readGguf file pos = .ok (r, pos')) : r.metaEnd = UInt64.ofNat pos' := by
  obtain ⟨_, _, _, h⟩ := FileReader.bind_ok.mp h
  split at h
  · cases h
  · obtain ⟨_, _, _, h⟩ := FileReader.bind_ok.mp h
    obtain ⟨_, _, htell, h⟩ := FileReader.bind_ok.mp h
    cases htell
    cases h
    rfl

theorem open_ok {file : List UInt8} {r : GgufReader} :
    GgufReader.open file = .ok r ↔ ∃ pos, readGguf file 0 = .ok (r, pos) := by
  unfold GgufReader.open
  cases readGguf file 0 with
  | error e => simp [Except.map]
  | ok a => simp [Except.map, Prod.ext_iff]

/-- A file whose metadata lies in it is opened exactly when it starts with the bytes of a
well-formed one, and the reader is then determined. -/
theorem open_iff {file : List UInt8} {r : GgufReader} (hlen : file.length < maxOffset) :
    GgufReader.open file = .ok r ∧ r.metaEnd.toNat ≤ file.length ↔
      ∃ w : WireFile, w.Ok 0 ∧ r = w.reader 0 ∧ w.spell <+: file := by
  rw [open_ok]
  constructor
  · rintro ⟨⟨pos', h⟩, hend⟩
    have hlt : pos' < 2 ^ 64 :=
      (accepts_readGguf.bounded hlen (by decide) h).trans (by decide)
    rw [readGguf_metaEnd h, UInt64.toNat_ofNat_of_lt' hlt] at hend
    obtain ⟨_, ⟨w, hok, rfl, hr⟩, hs⟩ := (accepts_readGguf.iff hlen).mp ⟨h, hend⟩
    exact ⟨w, hok, hr, (spans_zero.mp hs).1⟩
  · rintro ⟨w, hok, rfl, hpre⟩
    obtain ⟨h, hle⟩ := (accepts_readGguf.iff hlen).mpr
      ⟨_, ⟨w, hok, rfl, rfl⟩, spans_zero.mpr ⟨hpre, rfl⟩⟩
    refine ⟨⟨_, h⟩, ?_⟩
    rw [readGguf_metaEnd h, UInt64.toNat_ofNat_of_lt' ((hle.trans_lt hlen).trans (by decide))]
    exact hle

theorem open_of_wire {w : WireFile} {file : List UInt8} (hok : w.Ok 0) (hpre : w.spell <+: file)
    (hlen : file.length < maxOffset) : GgufReader.open file = .ok (w.reader 0) :=
  ((open_iff hlen).mpr ⟨w, hok, rfl, hpre⟩).1

/-- Nothing is opened that starts with metadata of an invalid alignment. -/
theorem alignment_of_open {w : WireHead} {file : List UInt8} {r : GgufReader} (hok : w.Ok)
    (hpre : w.spell <+: file) (hlen : file.length < maxOffset)
    (h : GgufReader.open file = .ok r) : invalidAlignment (w.alignment 0) = false := by
  obtain ⟨hhead, _⟩ := (accepts_readHead.iff hlen).mpr
    ⟨w.spell, ⟨w, hok, rfl, rfl⟩, spans_zero.mpr ⟨hpre, rfl⟩⟩
  unfold GgufReader.open at h
  cases hread : readGguf file 0 with
  | error e =>
    rw [hread] at h
    cases h
  | ok a =>
    obtain ⟨head, mid, hhead', htail⟩ := FileReader.bind_ok.mp hread
    rw [hhead] at hhead'
    cases hhead'
    split at htail
    · cases htail
    · rename_i hal
      exact Bool.eq_false_iff.mpr hal

end Accepted

end NotreEngine.Gguf
