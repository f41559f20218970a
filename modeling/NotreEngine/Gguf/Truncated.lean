import NotreEngine.Overrun
import NotreEngine.Gguf.Wire

/-!
# Malformed files

What `GgufReader::open` does with a file that declares more than it holds. Reads notice the end of
the file, seeks do not: an array of scalars may end behind it. Room for the declared tensors is
reserved before one of them is read.
-/
namespace NotreEngine.Gguf

open FileReader Reader LittleEndian

section Reserve

def sizeofRawTensor : Nat := 80

/-- `tensors_.max_size()`. -/
def maxTensors : Nat := (2 ^ 63 - 1) / sizeofRawTensor

/-- `tensors_.reserve(count)` throws: over `max_size()`, or where the allocator does not have the
bytes. -/
def reserveThrows (allocates : Nat → Bool) (count : Nat) : Bool :=
  count > maxTensors || (count > 0 && !allocates (sizeofRawTensor * count))

/-- `GgufReader::open`, or nothing when an exception leaves it. -/
def GgufReader.openReserving (allocates : Nat → Bool) (file : List UInt8) :
    Option (Except Str GgufReader) :=
  match readHead file 0 with
  | .error e => some (.error e)
  | .ok (head, _) =>
    if invalidAlignment ((head.kvs.u alignmentKey).getD 32) then
      some (.error (text "invalid alignment"))
    else if reserveThrows allocates head.nTensors then none
    else some (GgufReader.open file)

/-- It returns, and what it accepts lies in the file. -/
def FailsClosed (allocates : Nat → Bool) (file : List UInt8) : Prop :=
  ∃ result, GgufReader.openReserving allocates file = some result ∧
    ∀ r, result = .ok r → r.metaEnd.toNat ≤ file.length

end Reserve

section Grammar

/-- The bytes of `count` elements that the file ends in, `k` bytes before the last of them does:
scalars, or arrays of which the last is such a one. -/
def CutItems (nested : List UInt8 → Nat → Prop) (depth elem count : Nat) (rest : List UInt8)
    (k : Nat) : Prop :=
  match ValueType.ofCode? elem with
  | none | some .string => False
  | some .array => ∃ (items : List (List UInt8)) (last : List UInt8), items.length + 1 = count ∧
      (∀ x ∈ items, Skipped depth elem x) ∧ rest = items.flatten ++ last ∧ nested last k
  | some ty => rest.length + k = count * ty.scalarSize

/-- The bytes of an array that the file ends in. -/
def CutArray : Nat → List UInt8 → Nat → Prop
  | 0, _, _ => False
  | depth + 1, bs, k => ∃ (elem count : Nat) (rest : List UInt8), elem < 256 ^ 4 ∧
      count < 256 ^ 8 ∧ bs = bytes 4 elem ++ (bytes 8 count ++ rest) ∧
      CutItems (CutArray depth) depth elem count rest k

/-- A key with such an array. -/
def WireKv.CutOff (kv : WireKv) (k : Nat) : Prop :=
  kv.key.length ≤ kMaxNameLen ∧ ∃ bs depth, kv.value = .array bs ∧ CutArray depth bs k

/-- Metadata whose last array the file ends in. -/
structure WireHead.CutOff (w : WireHead) (k : Nat) : Prop where
  version : 2 ≤ w.version.toNat ∧ w.version.toNat ≤ 3
  nTensors : w.nTensors < 256 ^ 8
  count : w.kvs.length < 256 ^ 8
  kvs : ∃ whole last, w.kvs = whole ++ [last] ∧ (∀ kv ∈ whole, kv.Ok) ∧ last.CutOff k

/-- The metadata a file declares: it starts with it, or ends in it, `k` bytes early. -/
def Declares (file : List UInt8) (w : WireHead) (k : Nat) : Prop :=
  w.Ok ∧ w.spell <+: file ∧ k = 0 ∨
    0 < k ∧ w.CutOff k ∧ w.spell = file ∧ file.length + k < maxOffset

end Grammar

section Overrun

theorem stays_readString : Stays readString :=
  (Stays.number 8 _).seq (Accepts.number 8 _) fun len =>
    (Stays.take len (text "eof in string body")).check (text "string too long")

theorem halts_readString : Halts readString := (Halts.number 8 _).bind _

theorem stays_skipString : Stays (do let _ ← readString; return ()) :=
  stays_readString.seq accepts_readString fun _ => Stays.pure ()

/-- An array of values that end the file, or a string, in one turn of the loop. -/
theorem overruns_skipItems {depth elem : Nat} {C : List UInt8 → Nat → Prop}
    (hout : Overruns (skipValue depth elem) fun _ _ bs k => C bs k)
    (hhalt : Halts (skipValue depth elem)) (count : Nat) :
    Overruns (iterate (fun _ => skipValue depth elem) count ()) fun _ _ bs k =>
      ∃ (items : List (List UInt8)) (last : List UInt8), items.length + 1 = count ∧
        (∀ x ∈ items, Skipped depth elem x) ∧ bs = items.flatten ++ last ∧ C last k := by
  have hstep : ∀ s : Unit, Accepts (skipValue depth elem) fun pos s' bs =>
      ∃ x, Skipped depth elem x ∧ bs = id x ∧ s' = (fun _ _ _ => ()) pos x s := by
    intro _
    refine (accepts_skipValue depth elem).congr fun pos _ bs => ?_
    constructor
    · exact fun hbs => ⟨bs, hbs, rfl, rfl⟩
    · rintro ⟨_, hx, rfl, _⟩
      exact hx
  refine (Overruns.iterate hstep (fun _ => hout) (fun _ => hhalt) count ()).congr
    fun pos _ bs k _ => ?_
  simp only [List.flatMap_id]

theorem halts_skipArray (depth : Nat) : Halts (skipValue depth ValueType.array.code) := by
  cases depth with
  | zero => exact Halts.fail _
  | succ depth => exact (Halts.number 4 _).bind _

theorem overruns_items {depth : Nat}
    (h : Overruns (skipValue depth ValueType.array.code) fun _ _ bs k => CutArray depth bs k)
    (elem count : Nat) :
    Overruns (iterate (fun _ => skipValue depth elem) count ()) fun _ _ rest k =>
      CutItems (CutArray depth) depth elem count rest k := by
  have hnone : Stays (skipValue depth elem) → Halts (skipValue depth elem) →
      Stays (iterate (fun _ => skipValue depth elem) count ()) := by
    intro hin hhalt
    refine (overruns_skipItems (C := fun _ _ => False) hin hhalt count).congr
      fun pos u bs k _ => iff_of_false ?_ id
    rintro ⟨_, _, _, _, _, h⟩
    exact h
  cases hty : ValueType.ofCode? elem with
  | none =>
    have hskip : skipValue depth elem = fail (text "unknown kv value type") := by
      unfold skipValue
      simp only [hty]
    simp only [CutItems, hty]
    rw [hskip] at hnone ⊢
    exact hnone (Stays.fail _) (Halts.fail _)
  | some ty =>
    obtain rfl := ValueType.ofCode?_eq_some.mp hty
    by_cases hstring : ty = .string
    · subst hstring
      have hskip : skipValue depth ValueType.string.code = do let _ ← readString; return () := by
        unfold skipValue
        rfl
      rw [hskip] at hnone ⊢
      exact hnone stays_skipString (halts_readString.bind _)
    · by_cases harray : ty = .array
      · subst harray
        exact overruns_skipItems h (halts_skipArray depth) count
      · have hskip : skipValue depth ty.code = skip ty.scalarSize (text "seek failed") := by
          unfold skipValue
          cases ty <;> first | rfl | contradiction
        have hcut : ∀ rest k, CutItems (CutArray depth) depth ty.code count rest k ↔
            rest.length + k = count * ty.scalarSize := by
          intro rest k
          cases ty <;> first | exact Iff.rfl | contradiction
        rw [hskip]
        exact (Overruns.skips _ count _).congr fun _ _ rest k _ => (hcut rest k).symm

theorem overruns_skipArray (depth : Nat) :
    Overruns (skipValue depth ValueType.array.code) fun _ _ bs k => CutArray depth bs k := by
  induction depth with
  | zero => exact Stays.fail _
  | succ depth ih =>
    refine ((Stays.number 4 _).bind (Accepts.number 4 _) fun elem => (Stays.number 8 _).bind
      (Accepts.number 8 _) fun count => overruns_items ih elem count).congr fun pos u bs k _ => ?_
    constructor
    · rintro ⟨elem, _, _, rfl, ⟨helem, rfl⟩, count, _, rest, rfl, ⟨hcount, rfl⟩, h⟩
      exact ⟨elem, count, rest, helem, hcount, rfl, h⟩
    · rintro ⟨elem, count, rest, helem, hcount, rfl, h⟩
      exact ⟨elem, _, _, rfl, ⟨helem, rfl⟩, count, _, rest, rfl, ⟨hcount, rfl⟩, h⟩

theorem CutArray.deep {n m k : Nat} {bs : List UInt8} (h : CutArray n bs k) (hm : bs.length ≤ m) :
    CutArray m bs k := by
  induction n generalizing m bs with
  | zero => exact h.elim
  | succ n ih =>
    obtain ⟨elem, count, rest, helem, hcount, rfl, hcut⟩ := h
    rw [List.length_append, List.length_append, length_bytes, length_bytes] at hm
    obtain ⟨m, rfl⟩ : ∃ m', m = m' + 1 := ⟨m - 1, by omega⟩
    refine ⟨elem, count, rest, helem, hcount, rfl, ?_⟩
    unfold CutItems at hcut ⊢
    split at hcut
    case h_1 => exact hcut
    case h_2 => exact hcut
    case h_3 =>
      obtain ⟨items, last, hlen, hitems, rfl, hlast⟩ := hcut
      rw [List.length_append] at hm
      refine ⟨items, last, hlen, fun x hx => (hitems x hx).deep ?_, rfl, ih hlast (by omega)⟩
      have := (List.sublist_flatten_of_mem hx).length_le
      omega
    case h_4 => exact hcut

/-- Only an array can end behind the file. -/
theorem overruns_parseValue (m : Kvs) (key : Str) (type : Nat) :
    Overruns (parseValue m key type) fun _ m' bs k =>
      type = ValueType.array.code ∧ m' = m ∧ ∃ depth, CutArray depth bs k := by
  have hother : Stays (parseValue m key type) → type ≠ ValueType.array.code →
      Overruns (parseValue m key type) fun _ m' bs k =>
        type = ValueType.array.code ∧ m' = m ∧ ∃ depth, CutArray depth bs k := by
    intro hin hne
    exact hin.congr fun _ _ _ _ _ => iff_of_false id fun h => hne h.1
  cases hty : ValueType.ofCode? type with
  | none =>
    apply hother
    · simp only [parseValue, hty]
      exact Stays.fail _
    · rintro rfl
      cases hty
  | some ty =>
    obtain rfl := ValueType.ofCode?_eq_some.mp hty
    by_cases hstring : ty = .string
    · subst hstring
      exact hother (stays_readString.seq accepts_readString fun _ => Stays.pure _) (by decide)
    · by_cases harray : ty = .array
      · subst harray
        refine ((Overruns.sized overruns_skipArray CutArray.deep).ends
          (g := fun _ _ => m) fun _ _ _ => rfl).congr fun pos m' bs k _ => ?_
        constructor
        · rintro ⟨_, hcut, rfl⟩
          exact ⟨rfl, rfl, hcut⟩
        · rintro ⟨_, rfl, hcut⟩
          exact ⟨(), hcut, rfl⟩
      · apply hother
        · have hparse : parseValue m key ty.code = do
              let vpos ← tell
              let bs ← take ty.scalarSize ty.eof
              return m.set key ty vpos bs := by
            cases ty <;> first | rfl | contradiction
          rw [hparse]
          exact Stays.tell.seq Accepts.tell fun vpos => (Stays.take _ _).seq (Accepts.take _ _)
            fun bs => Stays.pure _
        · cases ty <;> first | decide | contradiction

theorem halts_parseKv (m : Kvs) : Halts (parseKv m) := (halts_readString.mapError _).bind _

theorem overruns_parseKv (m : Kvs) :
    Overruns (parseKv m) fun pos m' bs k =>
      ∃ kv : WireKv, kv.CutOff k ∧ bs = kv.spell ∧ m' = kv.store pos m := by
  refine ((Stays.mapError _ stays_readString).bind (accepts_readString.mapError _) fun key =>
    (Stays.number 4 _).bind (Accepts.number 4 _) fun type =>
      overruns_parseValue m key type).congr fun pos m' bs k _ => ?_
  constructor
  · rintro ⟨key, _, _, rfl, ⟨hkey, rfl⟩, _, _, bs, rfl, ⟨_, rfl⟩, rfl, rfl, depth, hcut⟩
    refine ⟨⟨key, .array bs⟩, ⟨hkey, bs, depth, rfl, hcut⟩, ?_, rfl⟩
    simp only [WireKv.spell, WireKv.header, WireValue.type, WireValue.spell, List.append_assoc]
  · rintro ⟨⟨key, _⟩, ⟨hkey, bs, depth, rfl, hcut⟩, rfl, rfl⟩
    refine ⟨key, _, _, ?_, ⟨hkey, rfl⟩, _, _, bs, rfl, ⟨ValueType.code_lt .array, rfl⟩, rfl, rfl,
      depth, hcut⟩
    simp only [WireKv.spell, WireKv.header, WireValue.type, WireValue.spell, List.append_assoc]

theorem overruns_parseKvs (n : Nat) :
    Overruns (parseKvs n) fun pos m bs k => ∃ whole last, whole.length + 1 = n ∧
      (∀ kv ∈ whole, WireKv.Ok kv) ∧ WireKv.CutOff last k ∧
      bs = (whole ++ [last]).flatMap WireKv.spell ∧
      m = storeAll WireKv.spell WireKv.store pos (whole ++ [last]) {} := by
  refine (Overruns.iterate accepts_parseKv overruns_parseKv halts_parseKv n {}).congr
    fun pos m bs k _ => ?_
  simp only [storeAll_append, List.flatMap_append, List.flatMap_singleton, storeAll]
  constructor
  · rintro ⟨whole, _, hlen, hwhole, rfl, last, hlast, rfl, rfl⟩
    exact ⟨whole, last, hlen, hwhole, hlast, rfl, rfl⟩
  · rintro ⟨whole, last, hlen, hwhole, hlast, rfl, rfl⟩
    exact ⟨whole, _, hlen, hwhole, rfl, last, hlast, rfl, rfl⟩

theorem overruns_readHead :
    Overruns readHead fun pos head bs k => ∃ w : WireHead, w.CutOff k ∧ bs = w.spell ∧
      head = ⟨w.version, w.nTensors, w.maps pos, pos + w.spell.length + k⟩ := by
  refine ((Stays.number 4 _).bind (Accepts.number 4 _) fun magic => ((Stays.number 4 _).bind
    (Accepts.number 4 _) fun version => ((Stays.number 8 _).bind (Accepts.number 8 _)
      fun nTensors => (Stays.number 8 _).bind (Accepts.number 8 _) fun nKv =>
        (overruns_parseKvs nKv).ends fun _ _ _ => rfl).check _).check _).congr
          fun pos head bs k _ => ?_
  constructor
  · rintro ⟨magic, _, _, rfl, ⟨_, rfl⟩, hmagic, version, _, _, rfl, ⟨hv, rfl⟩, hversion, n, _, _,
      rfl, ⟨hn, rfl⟩, _, _, _, rfl, ⟨hcount, rfl⟩, m, ⟨whole, last, rfl, hwhole, hlast, rfl, rfl⟩,
      rfl⟩
    obtain rfl := not_not.mp hmagic
    have hword : (UInt32.ofNat version).toNat = version := UInt32.toNat_ofNat_of_lt' hv
    refine ⟨⟨UInt32.ofNat version, n, whole ++ [last]⟩, ⟨by rw [hword]; omega, hn, ?_,
      whole, last, rfl, hwhole, hlast⟩, ?_, ?_⟩
    · rwa [List.length_append, List.length_singleton]
    · simp only [WireHead.spell, WireHead.header, WireHead.kvBytes, hword, List.append_assoc,
        List.length_append, List.length_singleton]
    · simp only [WireHead.maps, WireHead.spell, WireHead.header, WireHead.kvBytes, hword,
        List.length_append, List.length_singleton, Nat.add_assoc]
  · rintro ⟨w, hcut, rfl, rfl⟩
    have hversion := hcut.version
    have hcount := hcut.count
    obtain ⟨whole, last, hkvs, hwhole, hlast⟩ := hcut.kvs
    refine ⟨kGgufMagic, _, _, ?_, ⟨by decide, rfl⟩, not_not.mpr rfl, w.version.toNat, _, _, rfl,
      ⟨w.version.toNat_lt, rfl⟩, by omega, w.nTensors, _, _, rfl, ⟨hcut.nTensors, rfl⟩,
      w.kvs.length, _, w.kvBytes, rfl, ⟨hcount, rfl⟩, w.maps pos, ⟨whole, last, ?_, hwhole, hlast,
        ?_, ?_⟩, ?_⟩
    · simp only [WireHead.spell, WireHead.header, List.append_assoc]
    · rw [hkvs, List.length_append, List.length_singleton]
    · rw [WireHead.kvBytes, hkvs]
    · simp only [WireHead.maps, WireHead.header, List.length_append, Nat.add_assoc, hkvs]
    · simp only [WireHead.spell, WireHead.header, List.length_append, Nat.add_assoc,
        UInt32.ofNat_toNat]

theorem stays_parseTensor (tensors : List RawTensor) : Stays (parseTensor tensors) := by
  have hdim : ∀ dims : List UInt64, Accepts (do
      let d ← number 8 (text "eof in tensor dim")
      return dims ++ [UInt64.ofNat d]) _ :=
    fun _ => (Accepts.number 8 _).bind fun _ => Accepts.pure _
  have hdims : ∀ n, Stays (iterate (fun dims => do
      let d ← number 8 (text "eof in tensor dim")
      return dims ++ [UInt64.ofNat d]) n []) := by
    intro n
    exact Stays.iterate hdim (fun _ => (Stays.number 8 _).seq (Accepts.number 8 _)
      fun _ => Stays.pure _) n []
  exact (Stays.mapError _ stays_readString).seq (accepts_readString.mapError _) fun name =>
    (Stays.number 4 _).seq (Accepts.number 4 _) fun nDims => Stays.check _ <|
      (hdims nDims).seq (accepts_dims nDims _) fun dims =>
        (Stays.number 4 _).seq (Accepts.number 4 _) fun ggmlType =>
          Stays.tell.seq Accepts.tell fun fpos =>
            (Stays.number 8 _).seq (Accepts.number 8 _) fun rel => Stays.pure _

theorem stays_parseTensorDir (n : Nat) : Stays (parseTensorDir n) :=
  Stays.iterate accepts_parseTensor stays_parseTensor n []

theorem halts_parseTensorDir (n : Nat) : Halts (parseTensorDir (n + 1)) :=
  Halts.iterate (fun _ => (halts_readString.mapError _).bind _) n []

end Overrun

section Returned

variable {file : List UInt8} {head : Head} {r : GgufReader} {w : WireHead} {k pos mid : Nat}

theorem readHead_ok (hlen : file.length < maxOffset) :
    readHead file 0 = .ok (head, pos) ↔ ∃ w k, Declares file w k ∧ pos = w.spell.length + k ∧
      head = ⟨w.version, w.nTensors, w.maps 0, pos⟩ := by
  constructor
  · intro h
    by_cases hin : pos ≤ file.length
    · obtain ⟨_, ⟨w, hok, rfl, rfl⟩, hs⟩ := (accepts_readHead.iff hlen).mp ⟨h, hin⟩
      obtain ⟨hpre, rfl⟩ := spans_zero.mp hs
      exact ⟨w, 0, .inl ⟨hok, hpre, rfl⟩, rfl, by rw [Nat.zero_add]⟩
    · have hmax := accepts_readHead.bounded hlen (by decide) h
      obtain ⟨k, rfl⟩ := Nat.exists_eq_add_of_lt (not_le.mp hin)
      obtain ⟨w, hcut, hspell, rfl⟩ :=
        (overruns_readHead.iff (k := k + 1) hmax (Nat.zero_le _) k.succ_pos).mp h
      rw [List.drop_zero] at hspell
      subst hspell
      refine ⟨w, k + 1, .inr ⟨k.succ_pos, hcut, rfl, hmax⟩, by omega, ?_⟩
      rw [Nat.zero_add, Nat.add_assoc]
  · rintro ⟨w, k, ⟨hok, hpre, rfl⟩ | ⟨hk, hcut, rfl, hmax⟩, rfl, rfl⟩
    · refine ((accepts_readHead.iff hlen).mpr ⟨w.spell, ⟨w, hok, rfl, ?_⟩,
        spans_zero.mpr ⟨hpre, rfl⟩⟩).1
      rw [Nat.zero_add]
      rfl
    · refine (overruns_readHead.iff hmax (Nat.zero_le _) hk).mpr ⟨w, hcut, rfl, ?_⟩
      rw [Nat.zero_add]

theorem readGguf_metaEnd_toNat (hlen : file.length < maxOffset)
    (h : readGguf file 0 = .ok (r, pos)) : r.metaEnd.toNat = pos := by
  have hmax := accepts_readGguf.bounded hlen (by decide) h
  rw [readGguf_metaEnd h]
  exact UInt64.toNat_ofNat_of_lt' (hmax.trans (by decide))

/-- What `open` leaves in the reader, for tensors that end at `pos`. -/
def Head.reader (head : Head) (tensors : List RawTensor) (pos : Nat) : GgufReader :=
  let alignment := (head.kvs.u alignmentKey).getD 32
  { version := head.version
    dataOffset := alignUp (UInt64.ofNat pos) alignment
    metaEnd := UInt64.ofNat pos
    kvEnd := UInt64.ofNat head.kvEnd
    alignment := alignment
    kvU := head.kvs.u
    kvI := head.kvs.i
    kvF := head.kvs.f
    kvS := head.kvs.s
    kvB := fun _ => none
    kvPos := head.kvs.pos
    tensors := tensors }

theorem readGguf_ok (h : readHead file 0 = .ok (head, mid)) :
    readGguf file 0 = .ok (r, pos) ↔ invalidAlignment ((head.kvs.u alignmentKey).getD 32) = false ∧
      ∃ tensors, parseTensorDir head.nTensors file mid = .ok (tensors, pos) ∧
        r = head.reader tensors pos := by
  constructor
  · intro hread
    obtain ⟨_, _, hhead, htail⟩ := FileReader.bind_ok.mp hread
    rw [h] at hhead
    cases hhead
    split at htail
    · cases htail
    · rename_i hal
      obtain ⟨ts, _, hdir, hend⟩ := FileReader.bind_ok.mp htail
      cases hend
      exact ⟨Bool.eq_false_iff.mpr hal, ts, hdir, rfl⟩
  · rintro ⟨hal, ts, hdir, rfl⟩
    refine FileReader.bind_ok.mpr ⟨head, mid, h, ?_⟩
    rw [if_neg (Bool.eq_false_iff.mp hal)]
    exact FileReader.bind_ok.mpr ⟨ts, pos, hdir, rfl⟩

theorem readGguf_invalid (h : readHead file 0 = .ok (head, mid))
    (hal : invalidAlignment ((head.kvs.u alignmentKey).getD 32) = true) :
    readGguf file 0 = .error (text "invalid alignment") := by
  unfold readGguf
  rw [bind_of_ok h, if_pos hal]
  rfl

/-- The tensors are read in the file, unless there are none. -/
theorem parseTensorDir_ok {tensors : List RawTensor} {n : Nat} (hlen : file.length < maxOffset)
    (hmid : mid < maxOffset) : parseTensorDir n file mid = .ok (tensors, pos) ↔
      file.length < mid ∧ n = 0 ∧ tensors = [] ∧ pos = mid ∨ ∃ ts : List WireTensor,
        ts.length = n ∧ (∀ t ∈ ts, t.Ok) ∧ Spans file mid (ts.flatMap WireTensor.spell) pos ∧
          tensors = located WireTensor.spell (fun pos t => t.raw pos) mid ts := by
  constructor
  · intro h
    by_cases hin : mid ≤ file.length
    · have hpos : pos ≤ file.length := by
        by_contra hout
        have hmax := (accepts_parseTensorDir n).bounded hlen hmid h
        obtain ⟨k, rfl⟩ := Nat.exists_eq_add_of_lt (not_le.mp hout)
        exact ((stays_parseTensorDir n).iff (k := k + 1) hmax hin k.succ_pos).mp h
      obtain ⟨_, ⟨ts, hn, hok, rfl, hts⟩, hs⟩ := ((accepts_parseTensorDir n).iff hlen).mp ⟨h, hpos⟩
      exact .inr ⟨ts, hn, hok, hs, hts⟩
    · cases n with
      | zero =>
        cases h
        exact .inl ⟨not_le.mp hin, rfl, rfl, rfl⟩
      | succ n => exact ((halts_parseTensorDir n).ne (not_le.mp hin) h).elim
  · rintro (⟨_, rfl, rfl, rfl⟩ | ⟨ts, hn, hok, hs, rfl⟩)
    · rfl
    · exact (((accepts_parseTensorDir n).iff hlen).mpr ⟨_, ⟨ts, hn, hok, rfl, rfl⟩, hs⟩).1

/-- What is accepted and ends behind the file declares no tensors. -/
theorem readGguf_behind (hlen : file.length < maxOffset) (h : readHead file 0 = .ok (head, mid))
    (hal : invalidAlignment ((head.kvs.u alignmentKey).getD 32) = false) :
    (∃ r pos, readGguf file 0 = .ok (r, pos) ∧ file.length < pos) ↔
      file.length < mid ∧ head.nTensors = 0 := by
  have hmid := accepts_readHead.bounded hlen (by decide) h
  constructor
  · rintro ⟨r, pos, hread, hpos⟩
    obtain ⟨_, ts, hdir, _⟩ := (readGguf_ok h).mp hread
    obtain ⟨hout, hn, _⟩ | ⟨_, _, _, hs, _⟩ := (parseTensorDir_ok hlen hmid).mp hdir
    · exact ⟨hout, hn⟩
    · exact absurd hs.2.2 (not_le.mpr hpos)
  · rintro ⟨hout, hn⟩
    have hdir := (parseTensorDir_ok hlen hmid).mpr (.inl ⟨hout, hn, rfl, rfl⟩)
    exact ⟨_, mid, (readGguf_ok h).mpr ⟨hal, [], hdir, rfl⟩, hout⟩

/-- The metadata of a file ends where its head does not depend on who reads it. -/
theorem Declares.unique (hlen : file.length < maxOffset) (h : readHead file 0 = .ok (head, mid))
    (hw : Declares file w k) : mid = w.spell.length + k ∧ head.nTensors = w.nTensors ∧
      (head.kvs.u alignmentKey).getD 32 = w.alignment 0 ∧ (file.length < mid ↔ 0 < k) := by
  have hread := (readHead_ok hlen).mpr ⟨w, k, hw, rfl, rfl⟩
  rw [h] at hread
  cases hread
  refine ⟨rfl, rfl, rfl, ?_⟩
  obtain ⟨_, hpre, rfl⟩ | ⟨hk, _, rfl, _⟩ := hw
  · have hle := hpre.length_le
    omega
  · omega

theorem openReserving_of_head (allocates : Nat → Bool) (h : readHead file 0 = .ok (head, mid)) :
    GgufReader.openReserving allocates file =
      if invalidAlignment ((head.kvs.u alignmentKey).getD 32) then
        some (.error (text "invalid alignment"))
      else if reserveThrows allocates head.nTensors then none
      else some (GgufReader.open file) := by
  rw [GgufReader.openReserving, h]

/-- What is accepted ends in the file exactly if tensors follow a head that ends behind it. -/
theorem metaEnd_le_iff (hlen : file.length < maxOffset) (h : readHead file 0 = .ok (head, mid))
    (hal : invalidAlignment ((head.kvs.u alignmentKey).getD 32) = false) :
    (∀ r, GgufReader.open file = .ok r → r.metaEnd.toNat ≤ file.length) ↔
      (file.length < mid → 0 < head.nTensors) := by
  have hbehind := readGguf_behind hlen h hal
  constructor
  · intro hin hout
    refine Nat.pos_of_ne_zero fun hn => ?_
    obtain ⟨r, pos, hr, hpos⟩ := hbehind.mpr ⟨hout, hn⟩
    have hle := hin r (open_ok.mpr ⟨pos, hr⟩)
    rw [readGguf_metaEnd_toNat hlen hr] at hle
    omega
  · intro hin r hr
    obtain ⟨pos, hr⟩ := open_ok.mp hr
    rw [readGguf_metaEnd_toNat hlen hr]
    by_contra hpos
    obtain ⟨hout, hn⟩ := hbehind.mp ⟨r, pos, hr, not_le.mp hpos⟩
    have := hin hout
    omega

/-- Of a file whose head is read it is enough to ask for that head. -/
theorem forall_declares_iff (allocates : Nat → Bool) (hlen : file.length < maxOffset)
    (h : readHead file 0 = .ok (head, mid)) :
    (∀ w k, Declares file w k → invalidAlignment (w.alignment 0) = false →
        reserveThrows allocates w.nTensors = false ∧ (0 < k → 0 < w.nTensors)) ↔
      (invalidAlignment ((head.kvs.u alignmentKey).getD 32) = false →
        reserveThrows allocates head.nTensors = false ∧
          (file.length < mid → 0 < head.nTensors)) := by
  obtain ⟨w, k, hw, _, _⟩ := (readHead_ok hlen).mp h
  constructor
  · intro hall
    obtain ⟨_, hn, hal, hk⟩ := hw.unique hlen h
    rw [hn, hal, hk]
    exact hall w k hw
  · intro hhead w k hw
    obtain ⟨_, hn, hal, hk⟩ := hw.unique hlen h
    rwa [hn, hal, hk] at hhead

/-- Malformed files fail closed unless they declare, behind metadata with a valid alignment, more
tensors than there is room for, or none behind an array that the file ends in. -/
theorem failsClosed_iff (allocates : Nat → Bool) (hlen : file.length < maxOffset) :
    FailsClosed allocates file ↔ ∀ w k, Declares file w k →
      invalidAlignment (w.alignment 0) = false →
        reserveThrows allocates w.nTensors = false ∧ (0 < k → 0 < w.nTensors) := by
  cases hread : readHead file 0 with
  | error e =>
    constructor
    · intro _ w k hw _
      rw [(readHead_ok hlen).mpr ⟨w, k, hw, rfl, rfl⟩] at hread
      cases hread
    · intro _
      refine ⟨.error e, ?_, fun r h => by cases h⟩
      rw [GgufReader.openReserving, hread]
  | ok a =>
    obtain ⟨head, mid⟩ := a
    rw [forall_declares_iff allocates hlen hread, FailsClosed,
      openReserving_of_head allocates hread]
    cases hal : invalidAlignment ((head.kvs.u alignmentKey).getD 32) with
    | true =>
      refine iff_of_true ⟨_, if_pos rfl, fun r h => by cases h⟩ ?_
      intro h
      cases h
    | false =>
      rw [if_neg Bool.false_ne_true, ← metaEnd_le_iff hlen hread hal]
      cases hthrow : reserveThrows allocates head.nTensors with
      | true =>
        refine iff_of_false ?_ ?_
        · rintro ⟨_, h, _⟩
          cases h
        · intro h
          cases (h rfl).1
      | false =>
        rw [if_neg Bool.false_ne_true]
        constructor
        · rintro ⟨_, h, hin⟩ _
          cases h
          exact ⟨rfl, hin⟩
        · intro h
          exact ⟨_, rfl, (h rfl).2⟩

/-- Metadata of nothing: version 3, no keys, and a number of tensors. -/
def bareFile (nTensors : Nat) : List UInt8 :=
  bytes 4 kGgufMagic ++ (bytes 4 3 ++ (bytes 8 nTensors ++ bytes 8 0))

theorem failsClosed_bare : FailsClosed (fun _ => true) (bareFile 0) := by
  have hread : readHead (bareFile 0) 0 = .ok (⟨3, 0, {}, 24⟩, 24) := rfl
  refine (failsClosed_iff (fun _ => true) (by decide)).mpr fun w k hw _ => ?_
  obtain ⟨_, hn, _, hk⟩ := hw.unique (by decide) hread
  rw [← hn]
  exact ⟨rfl, fun hpos => absurd (hk.mpr hpos) (by decide)⟩

/-- A key `k` with an array of one byte that is not there. -/
def cutFile : List UInt8 :=
  bytes 4 kGgufMagic ++ (bytes 4 3 ++ (bytes 8 0 ++ (bytes 8 1 ++ (spellString [107] ++
    (bytes 4 ValueType.array.code ++ (bytes 4 ValueType.uint8.code ++ bytes 8 1))))))

/-- `reserve` throws for the first file, and the metadata of the second ends behind it. -/
theorem not_failsClosed : ¬ FailsClosed (fun _ => true) (bareFile (2 ^ 64 - 1)) ∧
    ¬ FailsClosed (fun _ => true) cutFile := by
  constructor
  · rintro ⟨result, h, _⟩
    have hthrow : GgufReader.openReserving (fun _ => true) (bareFile (2 ^ 64 - 1)) = none := rfl
    rw [hthrow] at h
    cases h
  · rintro ⟨result, h, hin⟩
    have hend : ((GgufReader.openReserving (fun _ => true) cutFile).map fun result =>
        result.map fun r => r.metaEnd.toNat) = some (.ok 50) := rfl
    rw [h] at hend
    cases result with
    | error e => cases hend
    | ok r =>
      have hle := hin r rfl
      have hmeta : r.metaEnd.toNat = 50 := by simpa [Except.map] using hend
      have hlength : cutFile.length = 49 := by decide
      omega

end Returned

end NotreEngine.Gguf
