import NotreEngine.Gguf.Rewritten
import NotreEngine.Gguf.Truncated

/-!
# Fields that can be patched

The positions that `open` records, for rewriters that overwrite fields of a file in place: what the
reader then holds differs in that field only.
-/
namespace NotreEngine.Gguf

open FileReader Reader LittleEndian

section Patches

/-- Each recorded offset field can be given another offset. -/
def OffsetsPatchable (file : List UInt8) (r : GgufReader) : Prop :=
  ∀ (i : Nat) (t : RawTensor) (v : UInt64), r.tensors[i]? = some t →
    ∃ file', Buffer.overwrite t.offsetFieldPos.toNat (bytes 8 v.toNat) file = some file' ∧
      GgufReader.open file' = .ok { r with tensors := r.tensors.set i { t with relOffset := v } }

/-- The reader with another value of a scalar. The alignment is one of the values, and the offset of
the data follows it. -/
def GgufReader.setValue (r : GgufReader) (key : Str) (ty : ValueType) (bs : List UInt8) :
    GgufReader :=
  let m := Kvs.set { u := r.kvU, i := r.kvI, f := r.kvF } key ty 0 bs
  let r := { r with kvU := m.u, kvI := m.i, kvF := m.f }
  if key = alignmentKey then
    let alignment := (m.u key).getD 32
    { r with alignment := alignment, dataOffset := alignUp r.metaEnd alignment }
  else r

/-- The position of a scalar is recorded, its bytes can be replaced there, and the file is then
accepted if it is aligned to a power of two. -/
def ScalarPatchable (file : List UInt8) (r : GgufReader) (key : Str) (ty : ValueType)
    (start : Nat) : Prop :=
  ∃ p, r.kvScalarValuePos key = some p ∧ p.toNat = start ∧
    ∀ bs : List UInt8, bs.length = ty.scalarSize →
      ∃ file', Buffer.overwrite p.toNat bs file = some file' ∧
        GgufReader.open file' =
          if invalidAlignment (r.setValue key ty bs).alignment then
            .error (text "invalid alignment")
          else .ok (r.setValue key ty bs)

def ValueType.IsScalar (ty : ValueType) : Prop := ty ≠ .string ∧ ty ≠ .array

/-- Where the bytes of the value of `kv` begin, behind the entries `pre`. -/
def WireHead.valueStart (w : WireHead) (pre : List WireKv) (kv : WireKv) : Nat :=
  (w.header ++ pre.flatMap WireKv.spell ++ kv.header).length

/-- Recorded positions are patchable: those of the offsets, and those of the scalars where no key
occurs twice. -/
def FieldsPatchable (file : List UInt8) (r : GgufReader) : Prop :=
  OffsetsPatchable file r ∧ ∀ w k, Declares file w k → (w.kvs.map WireKv.key).Nodup →
    ∀ pre kv post, w.kvs = pre ++ kv :: post → kv.value.type.IsScalar →
      ScalarPatchable file r kv.key kv.value.type (w.valueStart pre kv)

end Patches

section Opened

variable {file tail : List UInt8} {r : GgufReader} {w w' : WireHead} {k : Nat}
  {ts : List WireTensor}

/-- The tensors that the bytes after the metadata list. -/
structure WireHead.Lists (w : WireHead) (k : Nat) (tail : List UInt8) (ts : List WireTensor) :
    Prop where
  count : ts.length = w.nTensors
  ok : ∀ t ∈ ts, t.Ok
  held : ts.flatMap WireTensor.spell <+: tail
  cut : 0 < k → ts = []

/-- What `open` leaves in the reader. -/
def WireHead.reader (w : WireHead) (k : Nat) (ts : List WireTensor) : GgufReader :=
  let kvEnd := w.spell.length + k
  Head.reader ⟨w.version, w.nTensors, w.maps 0, kvEnd⟩
    (located WireTensor.spell (fun pos t => t.raw pos) kvEnd ts)
    (kvEnd + (ts.flatMap WireTensor.spell).length)

/-- The metadata as it stands before the tail of a file. -/
def WireHead.Leads (w : WireHead) (k : Nat) (tail : List UInt8) : Prop :=
  w.Ok ∧ k = 0 ∨ 0 < k ∧ w.CutOff k ∧ tail = [] ∧ w.spell.length + k < maxOffset

theorem declares_iff : Declares file w k ↔ ∃ tail, file = w.spell ++ tail ∧ w.Leads k tail := by
  constructor
  · rintro (⟨hok, ⟨tail, rfl⟩, rfl⟩ | ⟨hk, hcut, rfl, hmax⟩)
    · exact ⟨tail, rfl, .inl ⟨hok, rfl⟩⟩
    · exact ⟨[], (List.append_nil _).symm, .inr ⟨hk, hcut, rfl, hmax⟩⟩
  · rintro ⟨tail, rfl, ⟨hok, rfl⟩ | ⟨hk, hcut, rfl, hmax⟩⟩
    · exact .inl ⟨hok, List.prefix_append _ _, rfl⟩
    · rw [List.append_nil]
      exact .inr ⟨hk, hcut, rfl, hmax⟩

theorem declared_of_open (hlen : file.length < maxOffset) (h : GgufReader.open file = .ok r) :
    ∃ w k, Declares file w k := by
  obtain ⟨_, hread⟩ := open_ok.mp h
  obtain ⟨head, mid, hhead, _⟩ := FileReader.bind_ok.mp hread
  obtain ⟨w, k, hw, _⟩ := (readHead_ok hlen).mp hhead
  exact ⟨w, k, hw⟩

theorem open_declared (hlen : (w.spell ++ tail).length < maxOffset) (hw : w.Leads k tail) :
    GgufReader.open (w.spell ++ tail) = .ok r ↔ invalidAlignment (w.alignment 0) = false ∧
      ∃ ts, w.Lists k tail ts ∧ r = w.reader k ts := by
  have hdec : Declares (w.spell ++ tail) w k := declares_iff.mpr ⟨tail, rfl, hw⟩
  have hread := (readHead_ok hlen).mpr ⟨w, k, hdec, rfl, rfl⟩
  have hmid := accepts_readHead.bounded hlen (by decide) hread
  obtain ⟨_, _, _, hk⟩ := hdec.unique hlen hread
  rw [open_ok]
  constructor
  · rintro ⟨pos, h⟩
    obtain ⟨hal, _, hdir, rfl⟩ := (readGguf_ok hread).mp h
    refine ⟨hal, ?_⟩
    obtain ⟨_, hn, rfl, rfl⟩ | ⟨ts, hn, hok, ⟨hpre, rfl, hle⟩, rfl⟩ :=
      (parseTensorDir_ok hlen hmid).mp hdir
    · exact ⟨[], ⟨hn.symm, by simp, List.nil_prefix, fun _ => rfl⟩, rfl⟩
    · obtain rfl : k = 0 := by omega
      rw [Nat.add_zero, List.drop_left] at hpre
      exact ⟨ts, ⟨hn, hok, hpre, fun h => absurd h (lt_irrefl 0)⟩, rfl⟩
  · rintro ⟨hal, ts, hts, rfl⟩
    refine ⟨_, (readGguf_ok hread).mpr ⟨hal, _, (parseTensorDir_ok hlen hmid).mpr ?_, rfl⟩⟩
    by_cases hcut : 0 < k
    · obtain rfl := hts.cut hcut
      exact .inl ⟨hk.mpr hcut, hts.count.symm, rfl, rfl⟩
    · obtain rfl : k = 0 := by omega
      have hle := hts.held.length_le
      refine .inr ⟨ts, hts.count, hts.ok, ⟨?_, rfl, ?_⟩, rfl⟩
      · rw [Nat.add_zero, List.drop_left]
        exact hts.held
      · rw [List.length_append]
        omega

theorem open_invalid (hlen : (w.spell ++ tail).length < maxOffset) (hw : w.Leads k tail)
    (hal : invalidAlignment (w.alignment 0) = true) :
    GgufReader.open (w.spell ++ tail) = .error (text "invalid alignment") := by
  have hdec : Declares (w.spell ++ tail) w k := declares_iff.mpr ⟨tail, rfl, hw⟩
  have hread := (readHead_ok hlen).mpr ⟨w, k, hdec, rfl, rfl⟩
  rw [GgufReader.open, readGguf_invalid hread hal]
  rfl

end Opened

section Offsets

variable {file tail : List UInt8} {r : GgufReader} {w : WireHead} {k : Nat}
  {ts : List WireTensor}

theorem length_spell_retarget (t : WireTensor) (v : UInt64) :
    (t.retarget v).spell.length = t.spell.length := by
  rw [spell_retarget, WireTensor.spell, List.length_append, List.length_append, length_bytes,
    length_bytes]

/-- Another offset of a tensor, in what the reader holds. -/
theorem reader_retarget (w : WireHead) (k : Nat) (pre : List WireTensor) (t : WireTensor)
    (post : List WireTensor) (v : UInt64) :
    w.reader k (pre ++ t.retarget v :: post) =
      { w.reader k (pre ++ t :: post) with
        tensors := (w.reader k (pre ++ t :: post)).tensors.set pre.length
          { t.raw (w.spell.length + k + (pre.flatMap WireTensor.spell).length) with
            relOffset := v } } := by
  have hlen : ((pre ++ t.retarget v :: post).flatMap WireTensor.spell).length =
      ((pre ++ t :: post).flatMap WireTensor.spell).length := by
    simp only [List.flatMap_append, List.flatMap_cons, List.length_append, length_spell_retarget]
  have htensors : ∀ pos, located WireTensor.spell (fun pos t => t.raw pos) pos
      (pre ++ t.retarget v :: post) =
        (located WireTensor.spell (fun pos t => t.raw pos) pos (pre ++ t :: post)).set pre.length
          { t.raw (pos + (pre.flatMap WireTensor.spell).length) with relOffset := v } := by
    intro pos
    have hset : ∀ (xs ys : List RawTensor) (y z : RawTensor), xs.length = pre.length →
        (xs ++ y :: ys).set pre.length z = xs ++ z :: ys := by
      intro xs ys y z hxs
      rw [← hxs, List.set_append_right _ _ le_rfl, Nat.sub_self, List.set_cons_zero]
    rw [located_append, located_append, located, located, hset _ _ _ _ (length_located _ _ _ _),
      length_spell_retarget]
    rfl
  simp only [WireHead.reader, Head.reader, hlen, htensors]

theorem WireHead.Leads.ok (h : w.Leads 0 tail) : w.Ok := by
  obtain ⟨hok, _⟩ | ⟨hk, _⟩ := h
  · exact hok
  · exact absurd hk (lt_irrefl 0)

theorem offsetsPatchable (hlen : file.length < maxOffset) (h : GgufReader.open file = .ok r) :
    OffsetsPatchable file r := by
  intro i raw v hi
  obtain ⟨w, k, hw⟩ := declared_of_open hlen h
  obtain ⟨tail, rfl, hlead⟩ := declares_iff.mp hw
  obtain ⟨hal, ts, hts, rfl⟩ := (open_declared hlen hlead).mp h
  obtain ⟨pre, t, post, rfl, rfl, rfl⟩ := located_getElem? hi
  obtain rfl : k = 0 := by
    by_contra hk
    have hnil := hts.cut (Nat.pos_of_ne_zero hk)
    simp at hnil
  obtain ⟨rest, rfl⟩ := hts.held
  generalize hstart : w.spell ++ (pre.flatMap WireTensor.spell ++ t.header) = start
  have hfile : w.spell ++ ((pre ++ t :: post).flatMap WireTensor.spell ++ rest) =
      start ++ (bytes 8 t.relOffset.toNat ++ (post.flatMap WireTensor.spell ++ rest)) := by
    rw [← hstart]
    simp only [List.flatMap_append, List.flatMap_cons, WireTensor.spell, List.append_assoc]
  have hfile' : w.spell ++ ((pre ++ t.retarget v :: post).flatMap WireTensor.spell ++ rest) =
      start ++ (bytes 8 v.toNat ++ (post.flatMap WireTensor.spell ++ rest)) := by
    rw [← hstart]
    simp only [List.flatMap_append, List.flatMap_cons, spell_retarget, List.append_assoc]
  have hpatch := Buffer.overwrite_of_length_eq start (bytes 8 v.toNat) (bytes 8 t.relOffset.toNat)
    (post.flatMap WireTensor.spell ++ rest) ((length_bytes 8 _).trans (length_bytes 8 _).symm)
  have hpos : (t.raw (w.spell.length + 0 +
      (pre.flatMap WireTensor.spell).length)).offsetFieldPos.toNat = start.length := by
    have hin : start.length ≤ (w.spell ++ ((pre ++ t :: post).flatMap WireTensor.spell ++
        rest)).length := by
      rw [hfile, List.length_append]
      exact Nat.le_add_right _ _
    have hword : start.length < 256 ^ 8 := (hin.trans_lt hlen).trans (by decide)
    rw [← hstart] at hword ⊢
    simp only [List.length_append] at hword ⊢
    rw [WireTensor.raw, Nat.add_zero, Nat.add_assoc]
    exact toNat_ofNat_dword hword
  refine ⟨w.spell ++ ((pre ++ t.retarget v :: post).flatMap WireTensor.spell ++ rest), ?_, ?_⟩
  · rw [hpos, hfile, hfile', hpatch]
  · have hlen' : (w.spell ++ ((pre ++ t.retarget v :: post).flatMap WireTensor.spell ++
        rest)).length < maxOffset := by
      rw [hfile] at hlen
      rw [hfile']
      simpa only [List.length_append, length_bytes] using hlen
    refine (open_declared hlen' (.inl ⟨hlead.ok, rfl⟩)).mpr ⟨hal, _, ⟨?_, ?_, ?_, ?_⟩,
      (reader_retarget w 0 pre t post v).symm⟩
    · rw [← hts.count, List.length_append, List.length_append]
      rfl
    · intro x hx
      rcases List.mem_append.mp hx with hx | hx
      · exact hts.ok x (List.mem_append_left _ hx)
      · rcases List.mem_cons.mp hx with rfl | hx
        · have ht := hts.ok t (List.mem_append_right _ List.mem_cons_self)
          exact ⟨ht.name, ht.dims⟩
        · exact hts.ok x (List.mem_append_right _ (List.mem_cons_of_mem _ hx))
    · exact List.prefix_append _ _
    · exact fun hk => absurd hk (lt_irrefl 0)

end Offsets

section Scalars

variable {m : Kvs} {key : Str} {ty : ValueType} {bs bs' : List UInt8} {pos vpos : Nat}

theorem Kvs.set_set (m : Kvs) (key : Str) (ty : ValueType) (vpos : Nat) (bs bs' : List UInt8) :
    (m.set key ty vpos bs).set key ty vpos bs' = m.set key ty vpos bs' := by
  cases ty <;> simp [Kvs.set]

/-- Values of different keys are stored in either order. -/
theorem WireKv.store_set_comm {kv : WireKv} (h : kv.key ≠ key) :
    kv.store pos (m.set key ty vpos bs) = (kv.store pos m).set key ty vpos bs := by
  obtain ⟨k, v⟩ := kv
  have hcomm : ∀ {β : Type} (f : Str → β) (a b : β), Function.update (Function.update f key b) k a =
      Function.update (Function.update f k a) key b :=
    fun f a b => Function.update_comm h.symm _ _ f
  cases v with
  | array bs => rfl
  | string s => cases ty <;> rfl
  | scalar ty' bs' =>
    cases ty' <;> cases ty <;> simp only [WireKv.store, WireValue.store, Kvs.set, hcomm]

theorem storeAll_set_comm {kvs : List WireKv} (h : ∀ kv ∈ kvs, kv.key ≠ key) :
    storeAll WireKv.spell WireKv.store pos kvs (m.set key ty vpos bs) =
      (storeAll WireKv.spell WireKv.store pos kvs m).set key ty vpos bs := by
  induction kvs generalizing pos m with
  | nil => rfl
  | cons kv kvs ih =>
    obtain ⟨hkv, hkvs⟩ := List.forall_mem_cons.mp h
    rw [storeAll, storeAll, WireKv.store_set_comm hkv, ih hkvs]

/-- Floats are the scalars whose position is not recorded. -/
theorem Kvs.set_pos (m : Kvs) (key : Str) (vpos : Nat) (bs : List UInt8) (hty : ty.IsScalar) :
    (m.set key ty vpos bs).pos key =
      if ty = .float32 ∨ ty = .float64 then m.pos key else some (UInt64.ofNat vpos) := by
  cases ty
  case string => exact absurd rfl hty.1
  case array => exact absurd rfl hty.2
  all_goals simp [Kvs.set]

variable {file tail : List UInt8} {r : GgufReader} {w : WireHead} {k : Nat}
  {pre post : List WireKv} {ts : List WireTensor}

def WireHead.withKvs (w : WireHead) (kvs : List WireKv) : WireHead := { w with kvs := kvs }

/-- What is stored under a key that occurs once, and what for another value of it. -/
theorem maps_scalar (h : w.kvs = pre ++ ⟨key, .scalar ty bs⟩ :: post)
    (hnodup : (w.kvs.map WireKv.key).Nodup) : ∃ m : Kvs, m.pos key = none ∧
      ∀ bs' : List UInt8, bs'.length = bs.length →
        (w.withKvs (pre ++ ⟨key, .scalar ty bs'⟩ :: post)).maps 0 =
          m.set key ty (w.valueStart pre ⟨key, .scalar ty bs⟩) bs' := by
  have hkeys : (∀ kv ∈ pre, kv.key ≠ key) ∧ ∀ kv ∈ post, kv.key ≠ key := by
    rw [h, List.map_append, List.map_cons, List.nodup_append] at hnodup
    obtain ⟨_, hpost, hpre⟩ := hnodup
    refine ⟨fun kv hkv => ?_, fun kv hkv heq => ?_⟩
    · exact hpre kv.key (List.mem_map_of_mem hkv) key List.mem_cons_self
    · exact (List.nodup_cons.mp hpost).1 (List.mem_map.mpr ⟨kv, hkv, heq⟩)
  have habsent : ∀ {kvs : List WireKv} {pos : Nat} {m : Kvs}, (∀ kv ∈ kvs, kv.key ≠ key) →
      m.pos key = none → (storeAll WireKv.spell WireKv.store pos kvs m).pos key = none := by
    intro kvs pos m hkvs hm
    by_contra hsome
    obtain ⟨p, hp⟩ := Option.ne_none_iff_exists'.mp hsome
    rcases pos_storeAll hp with hp | ⟨_, _, _, _, rfl, _⟩
    · rw [hm] at hp
      cases hp
    · exact hkvs _ (List.mem_append_right _ List.mem_cons_self) rfl
  generalize hstart : w.header.length + (pre.flatMap WireKv.spell).length = start
  refine ⟨storeAll WireKv.spell WireKv.store
    (start + (WireKv.spell ⟨key, .scalar ty bs⟩).length) post
      (storeAll WireKv.spell WireKv.store w.header.length pre {}),
    habsent hkeys.2 (habsent hkeys.1 rfl), fun bs' hlen => ?_⟩
  have hheader : (w.withKvs (pre ++ ⟨key, .scalar ty bs'⟩ :: post)).header = w.header := by
    simp only [WireHead.header, WireHead.withKvs, h, List.length_append, List.length_cons]
  have hspell : (WireKv.spell ⟨key, .scalar ty bs'⟩).length =
      (WireKv.spell ⟨key, .scalar ty bs⟩).length := by
    simp only [WireKv.spell, WireKv.header, WireValue.spell, WireValue.type, List.length_append,
      hlen]
  have hvalue : w.valueStart pre ⟨key, .scalar ty bs⟩ =
      start + (WireKv.header ⟨key, .scalar ty bs⟩).length := by
    rw [← hstart]
    simp only [WireHead.valueStart, List.length_append]
  rw [WireHead.maps, hheader, Nat.zero_add, hvalue, ← storeAll_set_comm hkeys.2]
  simp only [WireHead.withKvs, storeAll_append, storeAll, hspell, hstart]
  rfl

/-- The bytes of the metadata around a value. -/
theorem WireHead.spell_split (h : w.kvs = pre ++ ⟨key, .scalar ty bs⟩ :: post) :
    (w.withKvs (pre ++ ⟨key, .scalar ty bs'⟩ :: post)).spell =
      (w.header ++ pre.flatMap WireKv.spell ++ WireKv.header ⟨key, .scalar ty bs⟩) ++
        (bs' ++ post.flatMap WireKv.spell) := by
  simp only [WireHead.spell, WireHead.header, WireHead.kvBytes, WireHead.withKvs, h,
    List.length_append, List.length_cons, List.flatMap_append, List.flatMap_cons, WireKv.spell,
    WireKv.header, WireValue.spell, WireValue.type, List.append_assoc]

theorem WireHead.withKvs_self (w : WireHead) : w.withKvs w.kvs = w := rfl

theorem WireHead.length_withValue (h : w.kvs = pre ++ ⟨key, .scalar ty bs⟩ :: post)
    (hlen : bs'.length = bs.length) :
    (w.withKvs (pre ++ ⟨key, .scalar ty bs'⟩ :: post)).spell.length = w.spell.length := by
  conv_rhs => rw [← w.withKvs_self, h, WireHead.spell_split h]
  rw [WireHead.spell_split h]
  simp only [List.length_append, hlen]

theorem WireHead.valueStart_le (h : w.kvs = pre ++ ⟨key, .scalar ty bs⟩ :: post) :
    w.valueStart pre ⟨key, .scalar ty bs⟩ ≤ w.spell.length := by
  conv_rhs => rw [← w.withKvs_self, h, WireHead.spell_split h, List.length_append]
  rw [WireHead.valueStart]
  exact Nat.le_add_right _ _

/-- The bytes of the value are where it begins. -/
theorem WireHead.overwrite_value (h : w.kvs = pre ++ ⟨key, .scalar ty bs⟩ :: post)
    (hlen : bs'.length = bs.length) :
    Buffer.overwrite (w.valueStart pre ⟨key, .scalar ty bs⟩) bs' (w.spell ++ tail) =
      some ((w.withKvs (pre ++ ⟨key, .scalar ty bs'⟩ :: post)).spell ++ tail) := by
  have hold : w.spell = (w.header ++ pre.flatMap WireKv.spell ++
      WireKv.header ⟨key, .scalar ty bs⟩) ++ (bs ++ post.flatMap WireKv.spell) := by
    rw [← WireHead.spell_split h, ← h, w.withKvs_self]
  rw [hold, WireHead.spell_split h, WireHead.valueStart]
  generalize w.header ++ pre.flatMap WireKv.spell ++ WireKv.header ⟨key, .scalar ty bs⟩ = front
  rw [List.append_assoc, List.append_assoc, List.append_assoc, List.append_assoc]
  exact Buffer.overwrite_of_length_eq front bs' bs _ hlen.symm

theorem WireHead.Leads.withValue (h : w.kvs = pre ++ ⟨key, .scalar ty bs⟩ :: post)
    (hlen : bs'.length = bs.length) (hw : w.Leads k tail) :
    (w.withKvs (pre ++ ⟨key, .scalar ty bs'⟩ :: post)).Leads k tail := by
  have hcount : (w.withKvs (pre ++ ⟨key, .scalar ty bs'⟩ :: post)).kvs.length = w.kvs.length := by
    simp only [WireHead.withKvs, h, List.length_append, List.length_cons]
  obtain ⟨hok, rfl⟩ | ⟨hk, hcut, rfl, hmax⟩ := hw
  · exact .inl ⟨⟨hok.version, hok.nTensors, hcount ▸ hok.count,
      WireKv.ok_replace hlen (h ▸ hok.kvs)⟩, rfl⟩
  · obtain ⟨whole, last, hkvs, hwhole, hlast⟩ := hcut.kvs
    have hsize := WireHead.length_withValue h hlen
    refine .inr ⟨hk, ⟨hcut.version, hcut.nTensors, hcount ▸ hcut.count, ?_⟩, rfl, hsize ▸ hmax⟩
    rw [h] at hkvs
    rcases List.eq_nil_or_concat post with rfl | ⟨post, last', rfl⟩
    · obtain ⟨_, hlast'⟩ := List.append_inj' hkvs rfl
      cases hlast'
      obtain ⟨_, _, _, hvalue, _⟩ := hlast
      cases hvalue
    · rw [List.concat_eq_append, ← List.cons_append, ← List.append_assoc] at hkvs
      obtain ⟨rfl, hlast'⟩ := List.append_inj' hkvs rfl
      cases hlast'
      refine ⟨pre ++ ⟨key, .scalar ty bs'⟩ :: post, last, ?_, WireKv.ok_replace hlen hwhole,
        hlast⟩
      rw [WireHead.withKvs, List.concat_eq_append, ← List.cons_append, ← List.append_assoc]

theorem Kvs.set_u_of_ne (m : Kvs) (ty : ValueType) (vpos : Nat) (bs : List UInt8)
    (h : key ≠ alignmentKey) : (m.set key ty vpos bs).u alignmentKey = m.u alignmentKey := by
  cases ty <;> simp [Kvs.set, Function.update_of_ne h.symm]

/-- The reader of the metadata with another value. -/
theorem reader_setValue {w' : WireHead} (hversion : w'.version = w.version)
    (hlen : w'.spell.length = w.spell.length)
    (hmaps : w'.maps 0 = (w.maps 0).set key ty vpos bs)
    (hpos : ((w.maps 0).set key ty vpos bs).pos = (w.maps 0).pos) :
    w'.reader k ts = (w.reader k ts).setValue key ty bs := by
  generalize hm : w.maps 0 = m at hmaps hpos
  have hu : (Kvs.set { u := m.u, i := m.i, f := m.f } key ty 0 bs).u = (m.set key ty vpos bs).u := by
    cases ty <;> rfl
  have hi : (Kvs.set { u := m.u, i := m.i, f := m.f } key ty 0 bs).i = (m.set key ty vpos bs).i := by
    cases ty <;> rfl
  have hf : (Kvs.set { u := m.u, i := m.i, f := m.f } key ty 0 bs).f = (m.set key ty vpos bs).f := by
    cases ty <;> rfl
  have hs : (m.set key ty vpos bs).s = m.s := by
    cases ty <;> rfl
  simp only [WireHead.reader, Head.reader, GgufReader.setValue, hversion, hlen, hmaps, hm, hpos,
    hu, hi, hf, hs]
  split
  · rename_i hkey
    rw [hkey]
  · rename_i hkey
    rw [Kvs.set_u_of_ne m ty vpos bs hkey]

theorem WireHead.Leads.scalar (hw : w.Leads k tail)
    (h : w.kvs = pre ++ ⟨key, .scalar ty bs⟩ :: post) : bs.length = ty.scalarSize := by
  have hmem : (⟨key, .scalar ty bs⟩ : WireKv) ∈ w.kvs := by
    rw [h]
    exact List.mem_append_right _ List.mem_cons_self
  obtain ⟨hok, _⟩ | ⟨_, hcut, _, _⟩ := hw
  · exact (hok.kvs _ hmem).value.2.2
  · obtain ⟨whole, last, hkvs, hwhole, _, _, _, hvalue, _⟩ := hcut.kvs
    rw [hkvs, List.mem_append, List.mem_singleton] at hmem
    rcases hmem with hmem | rfl
    · exact (hwhole _ hmem).value.2.2
    · cases hvalue

/-- The value under a key that occurs once decides what the reader has under that key. -/
theorem reader_withValue (h : w.kvs = pre ++ ⟨key, .scalar ty bs⟩ :: post)
    (hnodup : (w.kvs.map WireKv.key).Nodup) (hlen : bs'.length = bs.length) :
    (w.withKvs (pre ++ ⟨key, .scalar ty bs'⟩ :: post)).reader k ts =
      (w.reader k ts).setValue key ty bs' := by
  obtain ⟨m, _, hmaps⟩ := maps_scalar h hnodup
  have hself := hmaps bs rfl
  rw [← h, w.withKvs_self] at hself
  have hset := hmaps bs' hlen
  rw [← Kvs.set_set m key ty _ bs bs', ← hself] at hset
  refine reader_setValue rfl (WireHead.length_withValue h hlen) hset ?_
  rw [hself, Kvs.set_set]
  cases ty <;> rfl

/-- The position of a value is recorded unless it is a float. -/
theorem reader_valuePos (k : Nat) (ts : List WireTensor)
    (h : w.kvs = pre ++ ⟨key, .scalar ty bs⟩ :: post)
    (hnodup : (w.kvs.map WireKv.key).Nodup) (hty : ty.IsScalar) :
    (w.reader k ts).kvScalarValuePos key = if ty = .float32 ∨ ty = .float64 then none
      else some (UInt64.ofNat (w.valueStart pre ⟨key, .scalar ty bs⟩)) := by
  obtain ⟨m, hm, hmaps⟩ := maps_scalar h hnodup
  have hself := hmaps bs rfl
  rw [← h, w.withKvs_self] at hself
  rw [← hm, ← Kvs.set_pos m key _ bs hty, ← hself]
  rfl

/-- Metadata before tensors that it lists are refused for their alignment only. -/
theorem open_listed (hlen : (w.spell ++ tail).length < maxOffset) (hw : w.Leads k tail)
    (hts : w.Lists k tail ts) :
    GgufReader.open (w.spell ++ tail) =
      if invalidAlignment (w.reader k ts).alignment then .error (text "invalid alignment")
      else .ok (w.reader k ts) := by
  split
  · rename_i hinvalid
    exact open_invalid hlen hw hinvalid
  · rename_i hvalid
    exact (open_declared hlen hw).mpr ⟨Bool.eq_false_iff.mpr hvalid, ts, hts, rfl⟩

/-- A position that is recorded is where the value begins, and another value can be put there. -/
theorem scalarPatchable_iff (hlen : file.length < maxOffset) (hopen : GgufReader.open file = .ok r)
    (hw : Declares file w k) (hnodup : (w.kvs.map WireKv.key).Nodup)
    (h : w.kvs = pre ++ ⟨key, .scalar ty bs⟩ :: post) (hty : ty.IsScalar) :
    ScalarPatchable file r key ty (w.valueStart pre ⟨key, .scalar ty bs⟩) ↔
      ty ≠ .float32 ∧ ty ≠ .float64 := by
  obtain ⟨tail, rfl, hlead⟩ := declares_iff.mp hw
  obtain ⟨hal, ts, hts, rfl⟩ := (open_declared hlen hlead).mp hopen
  have hpos := reader_valuePos k ts h hnodup hty
  constructor
  · rintro ⟨p, hp, _⟩
    rw [hpos] at hp
    split at hp
    · cases hp
    · rename_i hfloat
      exact not_or.mp hfloat
  · intro hfloat
    rw [if_neg (not_or.mpr hfloat)] at hpos
    have hword : (UInt64.ofNat (w.valueStart pre ⟨key, .scalar ty bs⟩)).toNat =
        w.valueStart pre ⟨key, .scalar ty bs⟩ := by
      have hstart := WireHead.valueStart_le h
      rw [List.length_append] at hlen
      exact toNat_ofNat_dword (lt_trans (by omega) (show maxOffset < 256 ^ 8 by decide))
    refine ⟨_, hpos, hword, fun bs' hbs' => ?_⟩
    have hsize := hbs'.trans (hlead.scalar h).symm
    have hlength := WireHead.length_withValue h hsize
    have hlen' : ((w.withKvs (pre ++ ⟨key, .scalar ty bs'⟩ :: post)).spell ++ tail).length <
        maxOffset := by
      rwa [List.length_append, hlength, ← List.length_append]
    rw [hword, ← reader_withValue h hnodup hsize]
    exact ⟨_, WireHead.overwrite_value h hsize, open_listed hlen' (hlead.withValue h hsize)
      ⟨hts.count, hts.ok, hts.held, hts.cut⟩⟩

/-- The recorded positions of a file are patchable exactly if none of its keys, where they are
distinct, holds a float. -/
theorem fieldsPatchable_iff (hlen : file.length < maxOffset)
    (hopen : GgufReader.open file = .ok r) :
    FieldsPatchable file r ↔ ∀ w k, Declares file w k → (w.kvs.map WireKv.key).Nodup →
      ∀ kv ∈ w.kvs, kv.value.type ≠ .float32 ∧ kv.value.type ≠ .float64 := by
  have hscalar : ∀ {v : WireValue}, v.type.IsScalar → ∃ bs, v = .scalar v.type bs := by
    intro v hv
    cases v with
    | scalar ty bs => exact ⟨bs, rfl⟩
    | string s => exact absurd rfl hv.1
    | array bs => exact absurd rfl hv.2
  constructor
  · rintro ⟨_, hall⟩ w k hw hnodup ⟨key, v⟩ hkv
    by_cases hty : v.type.IsScalar
    · obtain ⟨bs, hv⟩ := hscalar hty
      obtain ⟨pre, post, hkvs⟩ := List.append_of_mem hkv
      have hpatch := hall w k hw hnodup pre _ post hkvs hty
      rw [hv] at hkvs
      refine (scalarPatchable_iff hlen hopen hw hnodup hkvs hty).mp ?_
      rw [← hv]
      exact hpatch
    · refine ⟨fun h => hty ?_, fun h => hty ?_⟩ <;> rw [h] <;> exact ⟨nofun, nofun⟩
  · intro hall
    refine ⟨offsetsPatchable hlen hopen, fun w k hw hnodup pre kv post hkvs hty => ?_⟩
    obtain ⟨key, v⟩ := kv
    change v.type.IsScalar at hty
    obtain ⟨bs, hv⟩ := hscalar hty
    have hfloat := hall w k hw hnodup ⟨key, v⟩ (by
      rw [hkvs]
      exact List.mem_append_right _ List.mem_cons_self)
    rw [hv] at hkvs
    have hpatch := (scalarPatchable_iff hlen hopen hw hnodup hkvs hty).mpr hfloat
    rwa [← hv] at hpatch

/-- One key and one tensor without dimensions. -/
def singleFile (kv : WireKv) : WireFile := ⟨3, [kv], [⟨[116], [], 0, 0⟩]⟩

theorem singleFile_ok {kv : WireKv} (h : kv.Ok) : (singleFile kv).head.Ok := by
  have hone : 1 < 256 ^ 8 := by decide
  have hversion : 2 ≤ (3 : UInt32).toNat ∧ (3 : UInt32).toNat ≤ 3 := by decide
  exact ⟨hversion, hone, hone, fun _ hx => List.mem_singleton.mp hx ▸ h⟩

theorem fieldsPatchable_aligned : ∃ r, GgufReader.open (singleFile alignmentItem).spell = .ok r ∧
    FieldsPatchable (singleFile alignmentItem).spell r := by
  have hread : readHead (singleFile alignmentItem).spell 0 =
      .ok (⟨3, 1, Kvs.set {} alignmentKey .uint32 53 (bytes 4 4096), 57⟩, 57) := rfl
  refine ⟨_, rfl, (fieldsPatchable_iff (by decide) rfl).mpr fun w k hw hnodup kv hkv => ?_⟩
  have hmaps : w.maps 0 = Kvs.set {} alignmentKey .uint32 53 (bytes 4 4096) := by
    have hw' := (readHead_ok (by decide)).mpr ⟨w, k, hw, rfl, rfl⟩
    rw [hread] at hw'
    simp only [Except.ok.injEq, Prod.mk.injEq, Head.mk.injEq] at hw'
    exact hw'.1.2.2.1.symm
  obtain ⟨key, v⟩ := kv
  obtain ⟨pre, post, hkvs⟩ := List.append_of_mem hkv
  cases v with
  | string s => exact ⟨nofun, nofun⟩
  | array bs => exact ⟨nofun, nofun⟩
  | scalar ty bs =>
    obtain ⟨m, _, hset⟩ := maps_scalar hkvs hnodup
    have hf := congrFun (congrArg Kvs.f (hset bs rfl)) key
    rw [← hkvs, w.withKvs_self, hmaps] at hf
    refine ⟨fun hty => ?_, fun hty => ?_⟩ <;>
      (change ty = _ at hty
       subst hty
       simp [Kvs.set] at hf)

/-- The position of a float is not recorded. -/
theorem not_fieldsPatchable : ∃ r,
    GgufReader.open (singleFile ⟨[102], .scalar .float32 (bytes 4 0)⟩).spell = .ok r ∧
      ¬ FieldsPatchable (singleFile ⟨[102], .scalar .float32 (bytes 4 0)⟩).spell r := by
  have hok : (singleFile ⟨[102], .scalar .float32 (bytes 4 0)⟩).head.Ok :=
    singleFile_ok ⟨by decide, nofun, nofun, rfl⟩
  refine ⟨_, rfl, fun h => ?_⟩
  obtain ⟨p, hp, _⟩ := h.2 _ 0 (.inl ⟨hok, List.prefix_append _ _, rfl⟩) (by decide) []
    ⟨[102], .scalar .float32 (bytes 4 0)⟩ [] rfl ⟨nofun, nofun⟩
  cases hp

end Scalars

end NotreEngine.Gguf
