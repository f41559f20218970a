import NotreEngine.Gguf.Model
import NotreEngine.Assoc
import NotreEngine.PagedMemory
import NotreEngine.Packing
import NotreEngine.Transition

/-!
# Dense residency

The policy ANON: one warmup pass copies the dense weights to anonymous memory, and the pages of the
model file are given back. Whatever is dropped, every weight still reads as it does in the file.
-/
namespace NotreEngine.Stream

open Transition
open Gguf (text ModelManifest)
open PagedMemory (Apart)

/-- What `stream_init` takes from the manifest. -/
def denseNames (manifest : ModelManifest) : List Str :=
  (manifest.tensors.filter fun ti => ti.kind ≠ .routedExpert).map Gguf.TensorInfo.name

/-- The model as it is loaded: the mapping of its file between `lo` and `hi`, the byte of the file
at each address of it, and the tensors of the graph by number. All weights are in the mapping. -/
structure Loaded where
  manifest : ModelManifest
  pageSize : Nat
  pageSize_pos : 0 < pageSize
  lo : Nat
  hi : Nat
  lo_page : pageSize ∣ lo
  hi_page : pageSize ∣ hi
  file : Nat → UInt8
  name : Nat → Str
  nbytes : Nat → Nat
  isI32 : Nat → Bool
  data : Nat → Option Nat
  dropMmap : Bool := true
  rebind : Bool := true
  mapped : ∀ t p, data t = some p → isI32 t = false →
    name t ∈ denseNames manifest ∨ text "_exps" <:+: name t → lo ≤ p ∧ p + nbytes t ≤ hi

/-- `blocks` are the live blocks of the allocator with their sizes, and `bound` the tensors that
were bound, in order. -/
structure Dense where
  mem : PagedMemory
  data : Nat → Option Nat
  denseBind : List (Str × Nat) := []
  expertMmap : List (Nat × Nat) := []
  denseAnonBytes : Nat := 0
  blocks : List (Nat × Nat)
  bound : List Nat := []

variable (W : Loaded)

/-- A page of the mapping that is not in memory is read from the file. -/
def Dense.content (d : Dense) (a : Nat) : UInt8 :=
  (d.mem a).getD (if W.lo ≤ a ∧ a < W.hi then W.file a else 0)

/-- All pages the range touches. -/
def dropResidentPages (ptr nbytes : Nat) (mem : PagedMemory) : PagedMemory :=
  if nbytes = 0 then mem
  else
    let start := ptr / W.pageSize * W.pageSize
    let stop := Packing.alignUp (ptr + nbytes) W.pageSize
    if stop ≤ start then mem else mem.discard start (stop - start)

/-- The copy of a tensor at `orig` takes the place of the original. -/
def copyDense (t orig buf : Nat) (d : Dense) : Dense :=
  { mem := d.mem.write buf (fun i => d.content W (orig + i)) (W.nbytes t)
    data := Function.update d.data t (some buf)
    denseBind := Assoc.put d.denseBind (W.name t) buf
    expertMmap := d.expertMmap
    denseAnonBytes := d.denseAnonBytes + W.nbytes t
    blocks := (buf, W.nbytes t) :: d.blocks
    bound := d.bound ++ [t] }

/-- `buf` is the answer of `posix_memalign`. -/
def tryBindDense (t : Nat) (buf : Option Nat) (d : Dense) : Dense :=
  match d.data t with
  | none => d
  | some orig =>
    if W.isI32 t then d
    else if !(denseNames W.manifest).contains (W.name t) ||
        (Assoc.find d.denseBind (W.name t)).isSome then d
    else if W.nbytes t = 0 ∨ 2 <<< 30 < W.nbytes t then d
    else
      match buf with
      | none => d
      | some buf =>
        let d := copyDense W t orig buf d
        if W.dropMmap then { d with mem := dropResidentPages W orig (W.nbytes t) d.mem } else d

def tryRecordExpertMmap (t : Nat) (d : Dense) : Dense :=
  match d.data t with
  | none => d
  | some p =>
    if W.isI32 t then d
    else if (denseNames W.manifest).contains (W.name t) || !decide (text "_exps" <:+: W.name t)
    then d
    else if W.nbytes t = 0 then d
    else if ((Assoc.find d.expertMmap p).all fun n => n < W.nbytes t) then
      { d with expertMmap := Assoc.put d.expertMmap p (W.nbytes t) }
    else d

/-- One round of the loop of `scan_dense_srcs`. -/
def scanSource (t : Nat) (buf : Option Nat) (d : Dense) : Dense :=
  tryBindDense W t buf (tryRecordExpertMmap W t d)

def dropExperts (d : Dense) : Dense :=
  { d with mem := d.expertMmap.foldl (fun mem x => dropResidentPages W x.1 x.2 mem) d.mem }

def streamAnonFinalize (d : Dense) : Dense := if W.dropMmap then dropExperts W d else d

def streamExpertMmapTrim (d : Dense) : Dense :=
  if !W.dropMmap || W.rebind then d else dropExperts W d

inductive DenseEvent where
  | source (t : Nat) (buf : Option Nat)
  | finalize
  | trim

/-- A new block is clear of the mapping and of the blocks there are. -/
def Fresh (d : Dense) (buf nbytes : Nat) : Prop :=
  Apart buf nbytes W.lo (W.hi - W.lo) ∧ ∀ x ∈ d.blocks, Apart buf nbytes x.1 x.2

inductive DenseStep : Dense → DenseEvent → Dense → Prop
  | source {d t buf} : (∀ b, buf = some b → Fresh W d b (W.nbytes t)) →
      DenseStep d (.source t buf) (scanSource W t buf d)
  | finalize {d} : DenseStep d .finalize (streamAnonFinalize W d)
  | trim {d} : DenseStep d .trim (streamExpertMmapTrim W d)

/-- From the load on: nothing has been written to the mapping, and no block is in it. -/
def denseSystem : System Dense DenseEvent where
  start d := (∀ a, W.lo ≤ a → a < W.hi → d.mem a = none) ∧ d.data = W.data ∧
    (∀ x ∈ d.blocks, Apart x.1 x.2 W.lo (W.hi - W.lo)) ∧
    d = { mem := d.mem, data := d.data, blocks := d.blocks }
  step := DenseStep W

variable {W} {d d' : Dense} {t : Nat} {buf : Option Nat} {a : Nat} {mem : PagedMemory}

/-- Dropping a range of the mapping drops nothing outside it. -/
theorem dropResidentPages_outside {ptr n : Nat} (hlo : W.lo ≤ ptr) (hhi : ptr + n ≤ W.hi)
    (ha : a < W.lo ∨ W.hi ≤ a) : dropResidentPages W ptr n mem a = mem a := by
  have hps := W.pageSize_pos
  have hstart : W.lo ≤ ptr / W.pageSize * W.pageSize := by
    obtain ⟨b, hb⟩ := W.lo_page
    have hle : b ≤ ptr / W.pageSize := by
      rw [Nat.le_div_iff_mul_le hps, Nat.mul_comm, ← hb]
      exact hlo
    calc W.lo = b * W.pageSize := by rw [hb, Nat.mul_comm]
      _ ≤ ptr / W.pageSize * W.pageSize := Nat.mul_le_mul_right _ hle
  have hstop : Packing.alignUp (ptr + n) W.pageSize ≤ W.hi := Packing.alignUp_le W.hi_page hhi
  unfold dropResidentPages
  split
  · rfl
  · dsimp only
    split
    · rfl
    · exact if_neg (by omega)

theorem dropResidentPages_none {ptr n : Nat} (h : mem a = none) :
    dropResidentPages W ptr n mem a = none := by
  unfold dropResidentPages
  split
  · exact h
  · dsimp only
    split
    · exact h
    · unfold PagedMemory.discard
      split
      · rfl
      · exact h

/-- The copy of a tensor holds what the file has of it. -/
structure Copied (W : Loaded) (d : Dense) (t : Nat) : Prop where
  dense : W.name t ∈ denseNames W.manifest
  holds : ∃ p buf, W.data t = some p ∧ d.data t = some buf ∧ (buf, W.nbytes t) ∈ d.blocks ∧
    d.mem.Holds buf (fun i => W.file (p + i)) (W.nbytes t)

/-- The mapping is never written to and all that is dropped is in it; what is bound is copied, each
name once. -/
structure Intact (W : Loaded) (d : Dense) : Prop where
  unwritten : ∀ a, W.lo ≤ a → a < W.hi → d.mem a = none
  apart : ∀ x ∈ d.blocks, Apart x.1 x.2 W.lo (W.hi - W.lo)
  kept : ∀ t, t ∉ d.bound → d.data t = W.data t
  copied : ∀ t ∈ d.bound, Copied W d t
  experts : ∀ x ∈ d.expertMmap, W.lo ≤ x.1 ∧ x.1 + x.2 ≤ W.hi
  names : ∀ n, (Assoc.find d.denseBind n).isSome ↔ n ∈ d.bound.map W.name
  once : (d.bound.map W.name).Nodup
  bytes : d.denseAnonBytes = (d.bound.map W.nbytes).sum

/-- The mapping reads as the file. -/
theorem Intact.content (h : Intact W d) (hlo : W.lo ≤ a) (hhi : a < W.hi) :
    d.content W a = W.file a := by
  rw [Dense.content, h.unwritten a hlo hhi, if_pos ⟨hlo, hhi⟩]
  rfl

/-- Memory may change in the mapping, if nothing is written there. -/
theorem Intact.remember (h : Intact W d) (hout : ∀ a, a < W.lo ∨ W.hi ≤ a → mem a = d.mem a)
    (hin : ∀ a, d.mem a = none → mem a = none) : Intact W { d with mem := mem } := by
  refine { h with unwritten := fun a hlo hhi => hin a (h.unwritten a hlo hhi), copied := ?_ }
  intro t ht
  obtain ⟨hdense, p, buf, hp, hbuf, hblock, hholds⟩ := h.copied t ht
  refine ⟨hdense, p, buf, hp, hbuf, hblock, fun i hi => ?_⟩
  have hout' : buf + i < W.lo ∨ W.hi ≤ buf + i := by
    have hapart := h.apart _ hblock
    unfold Apart at hapart
    dsimp only at hapart
    omega
  exact (hout _ hout').trans (hholds i hi)

theorem Intact.dropExperts (h : Intact W d) : Intact W (dropExperts W d) := by
  have hfold : ∀ (xs : List (Nat × Nat)) (mem : PagedMemory),
      (∀ x ∈ xs, W.lo ≤ x.1 ∧ x.1 + x.2 ≤ W.hi) →
      (∀ a, a < W.lo ∨ W.hi ≤ a →
          xs.foldl (fun mem x => dropResidentPages W x.1 x.2 mem) mem a = mem a) ∧
        ∀ a, mem a = none →
          xs.foldl (fun mem x => dropResidentPages W x.1 x.2 mem) mem a = none := by
    intro xs
    induction xs with
    | nil => exact fun mem _ => ⟨fun _ _ => rfl, fun _ ha => ha⟩
    | cons x xs ih =>
      intro mem hxs
      obtain ⟨⟨hlo, hhi⟩, hrest⟩ := List.forall_mem_cons.mp hxs
      obtain ⟨hout, hin⟩ := ih (dropResidentPages W x.1 x.2 mem) hrest
      refine ⟨fun a ha => ?_, fun a ha => ?_⟩
      · exact (hout a ha).trans (dropResidentPages_outside hlo hhi ha)
      · exact hin a (dropResidentPages_none ha)
  obtain ⟨hout, hin⟩ := hfold d.expertMmap d.mem h.experts
  exact h.remember hout hin

theorem Intact.record (h : Intact W d) (t : Nat) : Intact W (tryRecordExpertMmap W t d) := by
  unfold tryRecordExpertMmap
  split
  · exact h
  · rename_i p hp
    split
    · exact h
    · rename_i hi32
      split
      · exact h
      · rename_i hname
        split
        · exact h
        · split
          · refine ⟨h.unwritten, h.apart, h.kept, ?_, ?_, h.names, h.once, h.bytes⟩
            · exact fun u hu => ⟨(h.copied u hu).dense, (h.copied u hu).holds⟩
            intro x hx
            rcases Assoc.mem_put hx with rfl | hx
            · -- an expert is not bound, so it is where it was loaded
              simp only [Bool.or_eq_true, not_or, List.contains_iff_mem] at hname
              have hexps : text "_exps" <:+: W.name t := by simpa using hname.2
              have hkept : d.data t = W.data t := by
                apply h.kept
                intro hbound
                exact hname.1 (h.copied t hbound).dense
              exact W.mapped t p (hkept ▸ hp) (by simpa using hi32) (Or.inr hexps)
            · exact h.experts x hx
          · exact h

/-- A new block outside the mapping takes a copy of the weight. -/
theorem Intact.copy {p b : Nat} (h : Intact W d) (hdense : W.name t ∈ denseNames W.manifest)
    (hnew : W.name t ∉ d.bound.map W.name) (hdata : W.data t = some p) (hlo : W.lo ≤ p)
    (hhi : p + W.nbytes t ≤ W.hi) (hfresh : Fresh W d b (W.nbytes t)) :
    Intact W (copyDense W t p b d) := by
  obtain ⟨hmap, hblocks⟩ := hfresh
  refine ⟨?_, ?_, ?_, ?_, h.experts, ?_, ?_, ?_⟩
  · intro a hla hha
    have hno : ¬(b ≤ a ∧ a < b + W.nbytes t) := by
      unfold Apart at hmap
      omega
    exact (if_neg hno).trans (h.unwritten a hla hha)
  · intro x hx
    rcases List.mem_cons.mp hx with rfl | hx
    · exact hmap
    · exact h.apart x hx
  · intro u hu
    rcases not_or.mp (fun hor => hu (List.mem_append.mpr hor)) with ⟨hu, hut⟩
    have hne : u ≠ t := fun heq => hut (List.mem_singleton.mpr heq)
    exact (Function.update_of_ne hne _ _).trans (h.kept u hu)
  · intro u hu
    by_cases hut : u = t
    · subst hut
      refine ⟨hdense, p, b, hdata, Function.update_self _ _ _, List.mem_cons_self, ?_⟩
      intro i hi
      have hread : d.content W (p + i) = W.file (p + i) := h.content (by omega) (by omega)
      have hheld : d.mem.write b (fun i => d.content W (p + i)) (W.nbytes u) (b + i) =
          some (d.content W (p + i)) := PagedMemory.holds_write i hi
      exact hheld.trans (congrArg some hread)
    · have hbound : u ∈ d.bound := by
        rcases List.mem_append.mp hu with hu | hu
        · exact hu
        · exact absurd (List.mem_singleton.mp hu) hut
      obtain ⟨hdense', p', b', hp', hb', hblock, hholds⟩ := h.copied u hbound
      refine ⟨hdense', p', b', hp', ?_, List.mem_cons_of_mem _ hblock, ?_⟩
      · exact (Function.update_of_ne hut _ _).trans hb'
      · intro i hi
        have hclear : Apart b' (W.nbytes u) b (W.nbytes t) := (hblocks _ hblock).symm
        have hsame : d.mem.write b (fun i => d.content W (p + i)) (W.nbytes t) (b' + i) =
            d.mem (b' + i) := PagedMemory.write_of_apart hclear hi
        exact hsame.trans (hholds i hi)
  · intro n
    by_cases hn : n = W.name t
    · subst hn
      simp [copyDense]
    · have hfind : Assoc.find (copyDense W t p b d).denseBind n = Assoc.find d.denseBind n :=
        Assoc.find_put_of_ne hn
      rw [hfind, h.names n]
      simp [copyDense, hn]
  · have hmap : (copyDense W t p b d).bound.map W.name = d.bound.map W.name ++ [W.name t] := by
      simp [copyDense]
    rw [hmap, List.nodup_append]
    refine ⟨h.once, List.nodup_singleton _, ?_⟩
    rintro x hx y hy rfl
    exact hnew (List.mem_singleton.mp hy ▸ hx)
  · simp [copyDense, h.bytes]

theorem Intact.bind (h : Intact W d)
    (hfresh : ∀ b, buf = some b → Fresh W d b (W.nbytes t)) :
    Intact W (tryBindDense W t buf d) := by
  unfold tryBindDense
  split
  · exact h
  · rename_i p hp
    split
    · exact h
    · rename_i hi32
      split
      · exact h
      · rename_i hname
        split
        · exact h
        · split
          · exact h
          · rename_i b
            simp only [Bool.or_eq_true, not_or] at hname
            obtain ⟨hlisted, hfound⟩ := hname
            have hdense : W.name t ∈ denseNames W.manifest := by simpa using hlisted
            have hnew : W.name t ∉ d.bound.map W.name := fun hmem => hfound ((h.names _).mpr hmem)
            have hout : t ∉ d.bound := fun hmem => hnew (List.mem_map_of_mem hmem)
            have hdata : W.data t = some p := (h.kept t hout) ▸ hp
            obtain ⟨hlo, hhi⟩ := W.mapped t p hdata (by simpa using hi32) (Or.inl hdense)
            have hcopy := h.copy hdense hnew hdata hlo hhi (hfresh b rfl)
            -- the copy is made before the pages of the original are dropped
            dsimp only
            split
            · exact hcopy.remember (fun a ha => dropResidentPages_outside hlo hhi ha)
                fun a ha => dropResidentPages_none ha
            · exact hcopy

theorem intact_step {a : DenseEvent} (h : Intact W d) (hs : DenseStep W d a d') : Intact W d' := by
  cases hs with
  | @source t buf hfresh =>
    have hrecord := h.record t
    have hfresh' : ∀ b, buf = some b → Fresh W (tryRecordExpertMmap W t d) b (W.nbytes t) := by
      have hsame : (tryRecordExpertMmap W t d).blocks = d.blocks := by
        unfold tryRecordExpertMmap
        repeat (first | rfl | split)
      intro b hb
      exact ⟨(hfresh b hb).1, fun x hx => (hfresh b hb).2 x (hsame ▸ hx)⟩
    exact hrecord.bind hfresh'
  | finalize =>
    unfold streamAnonFinalize
    split
    · exact h.dropExperts
    · exact h
  | trim =>
    unfold streamExpertMmapTrim
    split
    · exact h
    · exact h.dropExperts

theorem intact_start (hs : (denseSystem W).start d) : Intact W d := by
  obtain ⟨hmem, hdata, hblocks, heq⟩ := hs
  rw [heq]
  exact ⟨hmem, hblocks, fun t _ => congrFun hdata t, by simp, by simp, by simp [Assoc.find],
    List.nodup_nil, rfl⟩

theorem intact_reachable (hr : (denseSystem W).Reachable d) : Intact W d :=
  hr.invariant (fun _ => intact_start) fun _ _ _ => intact_step

/-- Whatever the pass has bound and dropped so far, every tensor of the mapping reads byte for byte
as in the file; only dense weights are moved, each name once, and the anonymous bytes are those of
the copies. -/
theorem dense_transparent (W : Loaded) (d : Dense) (hr : (denseSystem W).Reachable d) :
    (∀ t p, W.data t = some p → W.lo ≤ p → p + W.nbytes t ≤ W.hi →
        ∃ q, d.data t = some q ∧ ∀ i < W.nbytes t, d.content W (q + i) = W.file (p + i)) ∧
      (∀ t, d.data t ≠ W.data t → W.name t ∈ denseNames W.manifest) ∧
      (d.bound.map W.name).Nodup ∧ d.denseAnonBytes = (d.bound.map W.nbytes).sum := by
  have h := intact_reachable hr
  refine ⟨?_, ?_, h.once, h.bytes⟩
  · intro t p hp hlo hhi
    by_cases ht : t ∈ d.bound
    · obtain ⟨-, p', q, hp', hq, -, hholds⟩ := h.copied t ht
      rw [hp] at hp'
      cases hp'
      refine ⟨q, hq, fun i hi => ?_⟩
      rw [Dense.content, hholds i hi]
      rfl
    · refine ⟨p, (h.kept t ht).trans hp, fun i hi => ?_⟩
      exact h.content (by omega) (by omega)
  · intro t hne
    by_contra hname
    apply hne
    apply h.kept
    exact fun ht => hname (h.copied t ht).dense

/-- A file of one page and a half with one weight across them, mapped at address 8. -/
def oneDense : ModelManifest :=
  { fileSize := 8, ggufVersion := 3, dataOffset := 0, ioAlignment := 0, architecture := text "moe"
    nLayers := 1, tensors := [{ name := text "output.weight", kind := .output, bytesTotal := 8 }] }

theorem oneDense_mapped : ∀ t p, (fun t => if t = 0 then some 9 else none : Nat → Option Nat) t =
    some p → false = false → text "output.weight" ∈ denseNames oneDense ∨
      text "_exps" <:+: text "output.weight" → 8 ≤ p ∧ p + 6 ≤ 16 := by
  intro t p hp _ _
  dsimp only at hp
  split at hp
  · cases hp
    decide
  · cases hp

theorem oneLoaded_page : 0 < 4 := by decide

theorem oneLoaded_lo : 4 ∣ 8 := by decide

theorem oneLoaded_hi : 4 ∣ 16 := by decide

def oneLoaded : Loaded where
  manifest := oneDense
  pageSize := 4
  pageSize_pos := oneLoaded_page
  lo := 8
  hi := 16
  lo_page := oneLoaded_lo
  hi_page := oneLoaded_hi
  file a := UInt8.ofNat a
  name _ := text "output.weight"
  nbytes _ := 6
  isI32 _ := false
  data t := if t = 0 then some 9 else none
  mapped := oneDense_mapped

def justLoaded : Dense := { mem := fun _ => none, data := oneLoaded.data, blocks := [] }

theorem reachable_bound :
    (denseSystem oneLoaded).Reachable (scanSource oneLoaded 0 (some 32) justLoaded) := by
  apply System.Reachable.step (a := .source 0 (some 32)) (s := justLoaded)
  · refine .start ⟨fun _ _ _ => rfl, rfl, ?_, rfl⟩
    intro x hx
    cases hx
  · refine .source ?_
    rintro b hb
    cases hb
    refine ⟨Or.inr (by decide), ?_⟩
    intro x hx
    cases hx

/-- The weight has moved to 32, where it reads as before, and the two pages of it are dropped. -/
theorem dense_transparent_bound :
    ∃ q, (scanSource oneLoaded 0 (some 32) justLoaded).data 0 = some q ∧
      ∀ i < 6, (scanSource oneLoaded 0 (some 32) justLoaded).content oneLoaded (q + i) =
        oneLoaded.file (9 + i) :=
  (dense_transparent oneLoaded _ reachable_bound).1 0 9 rfl (by decide) (by decide)

end NotreEngine.Stream
