import NotreEngine.Cache.Calls
import NotreEngine.Transition

/-!
# The hard cap

Which calls keep `used_` under the cap, along any run from an empty cache.
-/
namespace NotreEngine.Cache

open Recency Transition

/-- Runs of arbitrary calls on a cache created with the given cap, each with the source then
configured. -/
def callSystem (cap : Nat) : System SliceCache (Source × Call) where
  start c := c = fresh cap
  step c a c' := a.2.run a.1 c = some c'

/-- The batch makes room once but accounts every miss, so what stays then has to leave room for
all that is missing. -/
def Call.KeepsCap (c : SliceCache) : Call → Prop
  | .touchBatchAt t b base _ bytes =>
    let its := items t base bytes b.uniq
    trailing its c.recency = [] ∨ c.hardCapBytes < bytes ∨
      total Slice.bytes (staying Slice.bytes c.hardCapBytes bytes its c.recency) +
        (missing Slice.bytes c.hardCapBytes bytes its c.recency).length * bytes ≤ c.hardCapBytes
  | _ => True

variable {src : Source} {c c' : SliceCache} {call : Call}

theorem Index.Wf.used_of_recency {xs : List (UInt64 × Slice)} (h : c'.Wf)
    (hr : c'.recency = xs) : c'.used = total Slice.bytes xs := by
  rw [h.used_eq, hr]

theorem touchLocked_used_le {k : UInt64} {s : Slice} {ptr : Option Nat} {off : Nat} {found : Bool}
    (h : c.Wf) (hu : c.used ≤ c.hardCapBytes)
    (ht : touchLocked src c k s ptr off = some (c', found)) : c'.used ≤ c.hardCapBytes := by
  obtain ⟨hwf, _⟩ := touchLocked_wf h ht
  rw [hwf.used_of_recency (touchLocked_recency h ht)]
  exact total_touch_le (Or.inr (h.used_eq ▸ hu))

theorem touchBatch_used_le {t : Str} {b : Batch} {base srcBase bytes n : Nat} (h : c.Wf)
    (hu : c.used ≤ c.hardCapBytes)
    (ht : touchBatch src c t b base srcBase bytes = some (c', n)) : c'.used ≤ c.hardCapBytes := by
  obtain ⟨hwf, _, hrec⟩ := touchBatch_spec h ht
  rw [hwf.used_of_recency hrec]
  exact total_touchAll_le (Or.inr (h.used_eq ▸ hu))

/-- The one call that may go over: what stays and what was missing have to fit together. -/
theorem touchBatchAt_used_le_iff {t : Str} {b : Batch} {base off bytes n : Nat} (h : c.Wf)
    (hu : c.used ≤ c.hardCapBytes)
    (ht : touchBatchAt src c t b base off bytes = some (c', n)) :
    c'.used ≤ c.hardCapBytes ↔ (Call.touchBatchAt t b base off bytes).KeepsCap c := by
  obtain ⟨hwf, _, hrec⟩ := touchBatchAt_spec h ht
  rw [hwf.used_of_recency hrec]
  exact total_deferred_le_iff items_bytes (h.used_eq ▸ hu)

theorem commitJobs_used_le {ms : List Miss} (h : c.Wf) (hu : c.used ≤ c.hardCapBytes) :
    (commitJobs ms c).used ≤ c.hardCapBytes := by
  induction ms generalizing c with
  | nil => exact hu
  | cons m ms ih =>
    obtain ⟨hwf, hcap⟩ := commitJob_wf (m := m) h
    have hone : (commitJob c m).used ≤ c.hardCapBytes := by
      rw [hwf.used_of_recency (commitJob_recency h)]
      split
      · exact h.used_eq ▸ hu
      · exact total_touch_le (Or.inr (h.used_eq ▸ hu))
    have := ih hwf (hcap ▸ hone)
    rwa [hcap] at this

theorem prefetchBatchAt_wf {t : Str} {b : Batch} {base off bytes : Nat} (h : c.Wf) :
    (prefetchBatchAt src c t b base off bytes).Wf ∧
      (prefetchBatchAt src c t b base off bytes).hardCapBytes = c.hardCapBytes := by
  rcases prefetchBatchAt_cases src c t b base off bytes with heq | ⟨ms, c₁, hidx, heq⟩
  · rw [heq]
    exact ⟨h, rfl⟩
  · have h₁ : c₁.Wf := hidx ▸ h
    have hspec : (commitJobs ms c₁).Wf ∧
        (commitJobs ms c₁).hardCapBytes = c₁.hardCapBytes := commitJobs_wf h₁
    obtain ⟨hwf, hcap⟩ := hspec
    rw [heq]
    exact ⟨hwf, by rw [hcap, hidx]⟩

theorem prefetchBatchAt_used_le {t : Str} {b : Batch} {base off bytes : Nat} (h : c.Wf)
    (hu : c.used ≤ c.hardCapBytes) :
    (prefetchBatchAt src c t b base off bytes).used ≤ c.hardCapBytes := by
  rcases prefetchBatchAt_cases src c t b base off bytes with heq | ⟨ms, c₁, hidx, heq⟩
  · rw [heq]
    exact hu
  · have h₁ : c₁.Wf := hidx ▸ h
    have hu₁ : c₁.used ≤ c₁.hardCapBytes := by rwa [hidx]
    have hle : (commitJobs ms c₁).used ≤ c₁.hardCapBytes := commitJobs_used_le h₁ hu₁
    rw [heq]
    rwa [hidx] at hle

/-- Every call keeps the bookkeeping well formed and the cap. -/
theorem run_wf (h : c.Wf) (hr : call.run src c = some c') :
    c'.Wf ∧ c'.hardCapBytes = c.hardCapBytes := by
  cases call with
  | touch t e dest ptr bytes =>
    obtain ⟨⟨c₁, found⟩, ht, rfl⟩ := Option.map_eq_some_iff.mp hr
    exact touchLocked_wf h ht
  | touchAt t e dest off bytes =>
    obtain ⟨⟨c₁, found⟩, ht, rfl⟩ := Option.map_eq_some_iff.mp hr
    exact touchLocked_wf h ht
  | touchBatch t b base ptr bytes =>
    obtain ⟨⟨c₁, n⟩, ht, rfl⟩ := Option.map_eq_some_iff.mp hr
    obtain ⟨hwf, hcap, _⟩ := touchBatch_spec h ht
    exact ⟨hwf, hcap⟩
  | touchBatchAt t b base off bytes =>
    obtain ⟨⟨c₁, n⟩, ht, rfl⟩ := Option.map_eq_some_iff.mp hr
    obtain ⟨hwf, hcap, _⟩ := touchBatchAt_spec h ht
    exact ⟨hwf, hcap⟩
  | prefetchBatchAt t b base off bytes =>
    obtain rfl := Option.some.inj hr
    exact prefetchBatchAt_wf h

/-- One call on well-formed bookkeeping within the cap. -/
theorem run_used_le_iff (h : c.Wf) (hu : c.used ≤ c.hardCapBytes) (hr : call.run src c = some c') :
    c'.used ≤ c.hardCapBytes ↔ call.KeepsCap c := by
  cases call with
  | touch t e dest ptr bytes =>
    obtain ⟨⟨c₁, found⟩, ht, rfl⟩ := Option.map_eq_some_iff.mp hr
    exact iff_of_true (touchLocked_used_le h hu ht) trivial
  | touchAt t e dest off bytes =>
    obtain ⟨⟨c₁, found⟩, ht, rfl⟩ := Option.map_eq_some_iff.mp hr
    exact iff_of_true (touchLocked_used_le h hu ht) trivial
  | touchBatch t b base ptr bytes =>
    obtain ⟨⟨c₁, n⟩, ht, rfl⟩ := Option.map_eq_some_iff.mp hr
    exact iff_of_true (touchBatch_used_le h hu ht) trivial
  | touchBatchAt t b base off bytes =>
    obtain ⟨⟨c₁, n⟩, ht, rfl⟩ := Option.map_eq_some_iff.mp hr
    exact touchBatchAt_used_le_iff h hu ht
  | prefetchBatchAt t b base off bytes =>
    obtain rfl := Option.some.inj hr
    exact iff_of_true (prefetchBatchAt_used_le h hu) trivial

/-- A run stays within the cap exactly when every deferred batch in it has room for all it
inserts. -/
theorem used_le_cap_iff_keepsCap (cap : Nat) (tr : List ((Source × Call) × SliceCache))
    (ht : (callSystem cap).Trace (fresh cap) tr) :
    (∀ x ∈ tr, x.2.used ≤ cap) ↔ Guarded (fun c a => a.2.KeepsCap c) (fresh cap) tr := by
  apply trace_forall_iff_guarded (P := fun c : SliceCache => c.used ≤ cap)
    (Q := fun c : SliceCache => c.Wf ∧ c.hardCapBytes = cap) ht
  · rintro c ⟨src, call⟩ c' ⟨hwf, hcap⟩ hu hr
    obtain ⟨hwf', hcap'⟩ := run_wf hwf hr
    have hiff := run_used_le_iff hwf (hcap ▸ hu) hr
    exact ⟨⟨hwf', hcap'.trans hcap⟩, hcap ▸ hiff⟩
  · exact ⟨wf_empty cap, rfl⟩
  · exact Nat.zero_le cap

/-- Two experts fetched by one deferred batch, one page each. -/
def pairFetch : Call := .touchBatchAt [65] pairBatch 0 0 kPage

theorem pairFetch_run (cap : Nat) (h : ((pairFetch.run onesSource (fresh cap)).isSome)) :
    (callSystem cap).Trace (fresh cap)
      [((onesSource, pairFetch), (pairFetch.run onesSource (fresh cap)).get h)] :=
  .cons (Option.some_get h).symm (.nil _)

theorem used_le_cap_iff_keepsCap_pairFetch :
    (∀ x ∈ [((onesSource, pairFetch), (pairFetch.run onesSource (fresh 8192)).get (by decide))],
      x.2.used ≤ 8192) ↔
    Guarded (fun c a => a.2.KeepsCap c) (fresh 8192)
      [((onesSource, pairFetch), (pairFetch.run onesSource (fresh 8192)).get (by decide))] :=
  used_le_cap_iff_keepsCap 8192 _ (pairFetch_run 8192 (by decide))

/-- Under a cap of one page the same fetch accounts for two. -/
theorem not_used_le_cap :
    ¬ ∀ (cap : Nat) (tr : List ((Source × Call) × SliceCache)),
      (callSystem cap).Trace (fresh cap) tr → ∀ x ∈ tr, x.2.used ≤ cap := by
  intro h
  have hle := h 4096 _ (pairFetch_run 4096 (by decide)) _ (List.mem_singleton.mpr rfl)
  have hused : ((pairFetch.run onesSource (fresh 4096)).get (by decide)).used = 8192 := by decide
  simp only [hused] at hle
  omega

end NotreEngine.Cache
