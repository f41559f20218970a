import NotreEngine.Memory.Budget
import NotreEngine.Memory.KvBudget
import NotreEngine.Stream.Dense

/-!
# The budget at startup

How `runtime_prepare` chooses what becomes of the dense weights, and the cap it gives the cache. The
memory is read twice, before the choice and after it.
-/
namespace NotreEngine.Memory.Words

open Gguf (text ModelManifest TensorInfo)
open NotreEngine.Stream (Loaded Dense denseNames denseSystem)

variable {δ : Type*}

inductive DensePolicy
  | mmap
  | warm
  | anon
  deriving DecidableEq

def nonRouted (manifest : ModelManifest) : List TensorInfo :=
  manifest.tensors.filter fun ti => ti.kind ≠ .routedExpert

def addDense (manifest : ModelManifest) (n : UInt64) : UInt64 :=
  (nonRouted manifest).foldl (fun n ti => n + ti.bytesTotal) n

def denseBytes (manifest : ModelManifest) : UInt64 := addDense manifest 0

/-- `dense` is the value of `DENSE`, empty where it is not set. -/
def densePolicy (dense : Str) (regime : Regime) (memAvailable : UInt64)
    (manifest : ModelManifest) : DensePolicy :=
  if dense = [] then
    if regime ≠ .r0Resident ∧ memAvailable > denseBytes manifest * 2 then .anon else .mmap
  else if dense = text "warm" then .warm
  else if dense = text "anon" then .anon
  else .mmap

def detect (safetyMarginFrac : δ) (memTotal memAvailable : UInt64) : MemoryBudget δ :=
  { memTotal := memTotal, memAvailable := memAvailable, safetyMarginFrac := safetyMarginFrac
    baseReserve := (2048 : UInt64) <<< (20 : UInt64) }

def prepareBudget (policy : DensePolicy) (manifest : ModelManifest) (detected : MemoryBudget δ) :
    MemoryBudget δ :=
  { detected with
    kv := (64 : UInt64) <<< (20 : UInt64)
    staging := (64 : UInt64) <<< (20 : UInt64)
    runtimeBase :=
      let base := (512 : UInt64) <<< (20 : UInt64)
      if policy = .anon then addDense manifest base else base }

def cacheCap (scale : UInt64 → δ → UInt64) (policy : DensePolicy) (manifest : ModelManifest)
    (detected : MemoryBudget δ) (capGib : UInt64) : UInt64 :=
  (prepareBudget policy manifest detected).clampCacheCap scale (capGib <<< 30)

variable {manifest : ModelManifest} {W : Loaded} {d : Dense}

def denseTotal (manifest : ModelManifest) : Nat :=
  ((nonRouted manifest).map fun ti => ti.bytesTotal.toNat).sum

/-- A sum of words that does not wrap. -/
theorem toNat_addDense (manifest : ModelManifest) {n : UInt64}
    (h : n.toNat + denseTotal manifest < 2 ^ 64) :
    (addDense manifest n).toNat = n.toNat + denseTotal manifest := by
  unfold addDense denseTotal at *
  generalize nonRouted manifest = tis at *
  induction tis generalizing n with
  | nil => simp
  | cons ti tis ih =>
    rw [List.map_cons, List.sum_cons] at h ⊢
    have hadd : (n + ti.bytesTotal).toNat = n.toNat + ti.bytesTotal.toNat := by
      rw [UInt64.toNat_add]
      omega
    rw [List.foldl_cons, ih (by omega), hadd]
    omega

theorem toNat_denseBytes (manifest : ModelManifest) (h : denseTotal manifest < 2 ^ 64) :
    (denseBytes manifest).toNat = denseTotal manifest := by
  have hzero : (0 : UInt64).toNat = 0 := rfl
  rw [denseBytes, toNat_addDense manifest (by omega)]
  omega

/-- Items of different keys, each with a partner of its key that is as large, are no larger
together than all that could be partners. -/
theorem sum_le_of_keys {α β κ : Type*} (key : α → κ) (key' : β → κ) (size : α → Nat)
    (size' : β → Nat) (xs : List α) (ys : List β) (hnd : (xs.map key).Nodup)
    (h : ∀ x ∈ xs, ∃ y ∈ ys, key' y = key x ∧ size x ≤ size' y) :
    (xs.map size).sum ≤ (ys.map size').sum := by
  induction xs generalizing ys with
  | nil => simp
  | cons x xs ih =>
    rw [List.map_cons, List.nodup_cons] at hnd
    obtain ⟨y, hy, hkey, hsize⟩ := h x List.mem_cons_self
    obtain ⟨s, t, rfl⟩ := List.append_of_mem hy
    have hrest : (xs.map size).sum ≤ ((s ++ t).map size').sum := by
      apply ih _ hnd.2
      intro x' hx'
      obtain ⟨y', hy', hkey', hsize'⟩ := h x' (List.mem_cons_of_mem _ hx')
      refine ⟨y', ?_, hkey', hsize'⟩
      rcases List.mem_append.mp hy' with hs | ht
      · exact List.mem_append_left _ hs
      · rcases List.mem_cons.mp ht with rfl | ht
        · exact absurd (List.mem_map.mpr ⟨x', hx', by rw [← hkey', hkey]⟩) hnd.1
        · exact List.mem_append_right _ ht
    simp only [List.map_append, List.map_cons, List.sum_append, List.sum_cons] at hrest ⊢
    omega

/-- The copies are no larger than the dense weights of the manifest: no name is copied twice. -/
theorem denseAnonBytes_le (hr : (denseSystem W).Reachable d)
    (hsize : ∀ t, ∀ ti ∈ nonRouted W.manifest, ti.name = W.name t →
      W.nbytes t ≤ ti.bytesTotal.toNat) :
    d.denseAnonBytes ≤ denseTotal W.manifest := by
  have h := Stream.intact_reachable hr
  rw [h.bytes]
  apply sum_le_of_keys W.name TensorInfo.name _ _ _ _ h.once
  intro t ht
  obtain ⟨ti, hti, hname⟩ := List.mem_map.mp (h.copied t ht).dense
  exact ⟨ti, hti, hname, hsize t ti hti hname⟩

/-- What `runtime_prepare` sets aside beside the weights. -/
def setAside : Nat := 64 * 2 ^ 20 + 64 * 2 ^ 20 + 512 * 2 ^ 20

theorem fixedBytes_prepareBudget (frac : δ) (memTotal memAvailable : UInt64)
    (h : denseTotal manifest < 2 ^ 63) :
    (prepareBudget .anon manifest (detect frac memTotal memAvailable)).fixedBytes =
      setAside + denseTotal manifest := by
  have hstart : ((512 : UInt64) <<< (20 : UInt64)).toNat = 512 * 2 ^ 20 := by decide
  have hkv : ((64 : UInt64) <<< (20 : UInt64)).toNat = 64 * 2 ^ 20 := by decide
  have hshared : (0 : UInt64).toNat = 0 := rfl
  have hbase := toNat_addDense manifest (n := (512 : UInt64) <<< (20 : UInt64)) (by omega)
  simp only [MemoryBudget.fixedBytes, prepareBudget, detect, if_true, hbase, hkv, hstart,
    hshared, setAside]
  omega

/-- With the dense weights copied: whatever has been copied so far, a cache that was given any room
leaves enough of the usable memory for all copies; and a copy that was not asked for takes less than
half of the memory that was read first. -/
theorem cacheCap_covers (scale : UInt64 → δ → UInt64) (frac : δ)
    (memTotal memFirst memAvailable capGib : UInt64) (dense : Str) (regime : Regime)
    (W : Loaded) (d : Dense) (hr : (denseSystem W).Reachable d)
    (hsize : ∀ t, ∀ ti ∈ nonRouted W.manifest, ti.name = W.name t →
      W.nbytes t ≤ ti.bytesTotal.toNat)
    (hfit : denseTotal W.manifest < 2 ^ 63)
    (hanon : densePolicy dense regime memFirst W.manifest = .anon) :
    let budget := detect frac memTotal memAvailable
    (cacheCap scale .anon W.manifest budget capGib ≠ 0 →
        (cacheCap scale .anon W.manifest budget capGib).toNat + setAside + d.denseAnonBytes ≤
          budget.usable scale) ∧
      (dense = [] → 2 * d.denseAnonBytes < memFirst.toNat) := by
  have hcopies := denseAnonBytes_le hr hsize
  have hfixed := fixedBytes_prepareBudget frac memTotal memAvailable hfit
  refine ⟨?_, ?_⟩
  · intro hgiven
    have hsmall : setAside + denseTotal W.manifest < 2 ^ 64 := by
      unfold setAside
      omega
    have hcap : (cacheCap scale .anon W.manifest (detect frac memTotal memAvailable) capGib).toNat =
        min (capGib <<< 30).toNat ((detect frac memTotal memAvailable).usable scale -
          (setAside + denseTotal W.manifest)) := by
      rw [← hfixed]
      exact MemoryBudget.toNat_clampCacheCap (hfixed.trans_lt hsmall)
    have hpos : (cacheCap scale .anon W.manifest (detect frac memTotal memAvailable) capGib).toNat ≠
        0 := fun h => hgiven (UInt64.toNat_inj.mp h)
    omega
  · intro hauto
    have hdense := toNat_denseBytes W.manifest (by omega)
    rw [densePolicy, if_pos hauto] at hanon
    split at hanon
    · rename_i hroom
      have hlt : (denseBytes W.manifest * 2).toNat < memFirst.toNat :=
        UInt64.lt_iff_toNat_lt.mp hroom.2
      have hdouble : (denseBytes W.manifest * 2).toNat = denseTotal W.manifest * 2 := by
        rw [UInt64.toNat_mul, hdense]
        exact Nat.mod_eq_of_lt (by change denseTotal W.manifest * 2 < 2 ^ 64; omega)
      omega
    · cases hanon

/-- A model above a memory of 16 GiB, with one dense weight that has been copied: 6 bytes, in the
file with 2 bytes of padding. -/
theorem cacheCap_covers_one :
    2 * (Stream.scanSource Stream.oneLoaded 0 (some 32) Stream.justLoaded).denseAnonBytes <
      17179869184 := by
  have h := cacheCap_covers MemoryBudget.exactScale (12 / 100) 17179869184 17179869184 17179869184
    12 [] .r2AboveRam Stream.oneLoaded _ Stream.reachable_bound ?_ (by decide) (by decide)
  · exact h.2 rfl
  · intro t ti hti _
    have hone : ti ∈ [{ name := text "output.weight", kind := .output, bytesTotal := 8 }] := hti
    rw [List.mem_singleton.mp hone]
    have hpadded : 6 ≤ 8 := by decide
    exact hpadded

end NotreEngine.Memory.Words
