import NotreEngine.Cache.Replay
import NotreEngine.Inclusion

/-!
# More memory never hurts

The sweep of `lru-sim.cpp` over capacities and the cache under two caps: the larger one holds what
the smaller one holds, hits as often and loads no more.
-/
namespace NotreEngine.Cache

open Recency

namespace LruSim

variable {κ : Type} [DecidableEq κ] {s : LruSim κ} {k : κ} {b cap cap' : Nat}
  {touches : List (κ × Nat)}

theorem evictLoop_missBytes (n : Nat) (s : LruSim κ) :
    (evictLoop cap b n s).missBytes = s.missBytes := by
  induction n generalizing s with
  | zero => rfl
  | succ n ih =>
    rw [evictLoop]
    split
    · split
      · rw [ih]
        rfl
      · rfl
    · rfl

theorem touch_missBytes (h : s.Wf) :
    (s.touch cap k b).missBytes =
      s.missBytes + if k ∈ keys s.view.items then 0 else b := by
  have hkeys : keys s.view.items = s.order := keys_items
  rw [hkeys]
  cases hk : s.cache k with
  | some b' =>
    rw [if_pos ((h.resident k).mp ⟨b', hk⟩)]
    simp only [touch, hk, Nat.add_zero]
  | none =>
    have hout : k ∉ s.order := by
      intro hm
      obtain ⟨b', hb'⟩ := (h.resident k).mpr hm
      rw [hk] at hb'
      cases hb'
    rw [if_neg hout]
    simp only [touch, hk]
    split
    · exact evictLoop_missBytes _ _
    · exact evictLoop_missBytes _ _

theorem foldl_missBytes (h : s.Wf) :
    (touches.foldl (fun s t => s.touch cap t.1 t.2) s).missBytes =
      s.missBytes + s.view.missTotal id cap touches := by
  induction touches generalizing s with
  | nil => rfl
  | cons t touches ih =>
    obtain ⟨hwf, hview⟩ := touch_spec cap t.2 t.1 h
    rw [List.foldl_cons, ih hwf, hview, touch_missBytes h, Lru.missTotal]
    simp only [id]
    omega

/-- The second row of the sweep is no worse than the first. -/
structure Improves (s t : LruSim κ) : Prop where
  order : s.order <+: t.order
  hits : s.hits ≤ t.hits
  requests : s.hits + s.misses = t.hits + t.misses
  missBytes : t.missBytes ≤ s.missBytes

/-- A trace with one size for each key. -/
theorem replay_improves (hcap : cap ≤ cap')
    (hsize : ∀ x ∈ touches, ∀ y ∈ touches, x.1 = y.1 → x.2 = y.2) :
    Improves (replay cap touches) (replay cap' touches) := by
  obtain ⟨hwf, hview⟩ := replay_spec cap touches
  obtain ⟨hwf', hview'⟩ := replay_spec cap' touches
  have hempty : ({} : LruSim κ).Wf := ⟨List.nodup_nil, by simp, rfl⟩
  have hmiss : (replay cap touches).missBytes = Lru.missTotal id cap touches ({} : Lru κ Nat) := by
    rw [replay, foldl_missBytes hempty]
    exact Nat.zero_add _
  have hmiss' : (replay cap' touches).missBytes =
      Lru.missTotal id cap' touches ({} : Lru κ Nat) := by
    rw [replay, foldl_missBytes hempty]
    exact Nat.zero_add _
  obtain ⟨hbelow, hless⟩ : Lru.Below (({} : Lru κ Nat).touchAll id cap touches)
      (({} : Lru κ Nat).touchAll id cap' touches) ∧ _ :=
    (Lru.Below.refl _).touchAll List.nodup_nil hcap hsize (by simp) fun _ hx => hx
  rw [← hview, ← hview'] at hbelow
  refine ⟨?_, hbelow.hits, hbelow.requests, by rw [hmiss, hmiss']; exact hless⟩
  have hpre := hbelow.items.map Prod.fst
  rwa [show (replay cap touches).view.items.map Prod.fst = _ from keys_items,
    show (replay cap' touches).view.items.map Prod.fst = _ from keys_items] at hpre

end LruSim

section Cache

variable {src : Source} {c c' c'' : SliceCache} {k : UInt64} {s : Slice} {ptr : Option Nat}
  {off n n' : Nat} {found : Bool} {its its' : List (UInt64 × Slice)}

/-- The slices of a sequential call under their keys, in the order they are touched. -/
def Call.keyed : Call → List (UInt64 × Slice)
  | .touch t e dest _ bytes => [(key t e, ⟨t, e, dest, bytes⟩)]
  | .touchAt t e dest _ bytes => [(key t e, ⟨t, e, dest, bytes⟩)]
  | .touchBatch t b base _ bytes => items t base bytes b.uniq
  | .touchBatchAt .. | .prefetchBatchAt .. => []

/-- The cache has been through these touches, and counted what it loaded. -/
structure Served (c : SliceCache) (its : List (UInt64 × Slice)) (c' : SliceCache) : Prop where
  wf : c'.Wf
  cap : c'.hardCapBytes = c.hardCapBytes
  view : c'.view = c.view.touchAll Slice.bytes c.hardCapBytes its
  loaded : c'.stats.bytesLoaded =
    c.stats.bytesLoaded + c.view.missTotal Slice.bytes c.hardCapBytes its

theorem Served.trans (h : Served c its c') (h' : Served c' its' c'') :
    Served c (its ++ its') c'' := by
  refine ⟨h'.wf, h'.cap.trans h.cap, ?_, ?_⟩
  · rw [h'.view, h.view, h.cap, Lru.touchAll_append]
  · rw [h'.loaded, h.loaded, h.view, h.cap, Lru.missTotal_append, Nat.add_assoc]

theorem served_touchLocked (h : c.Wf) (ht : touchLocked src c k s ptr off = some (c', found)) :
    Served c [(k, s)] c' := by
  obtain ⟨hwf, hcap⟩ := touchLocked_wf h ht
  refine ⟨hwf, hcap, touchLocked_view h ht, ?_⟩
  have htotal : c.view.missTotal Slice.bytes c.hardCapBytes [(k, s)] =
      if k ∈ keys c.recency then 0 else s.bytes := Nat.add_zero _
  rw [htotal]
  cases hk : c.map k with
  | some e =>
    obtain ⟨rfl, -⟩ := touchLocked_hit hk ht
    rw [if_pos (h.mem_keys_iff.mpr ⟨e, hk⟩)]
    rfl
  | none =>
    obtain ⟨ev, -, -, hstats⟩ := (roomMade h s.bytes).evicted
    obtain ⟨f, hf, rfl, -⟩ := touchLocked_fill h hk ht
    rw [if_neg (h.absent_iff.mpr hk), commitLocked_stats, countMiss, fillSlice_stats hf, hstats]

theorem served_touchEach {tensor : Str} {base srcBase bytes : Nat} {es : List UInt32} (h : c.Wf)
    (ht : touchEach src tensor base srcBase bytes es c n = some (c', n')) :
    Served c (items tensor base bytes es) c' := by
  induction es generalizing c n with
  | nil =>
    cases ht
    exact ⟨h, rfl, rfl, rfl⟩
  | cons e es ih =>
    obtain ⟨c₁, found, h₁, hrest⟩ := touchEach_cons ht
    have hone := served_touchLocked h h₁
    exact hone.trans (ih hone.wf hrest)

theorem served_run {call : Call} (h : c.Wf) (hseq : call.Sequential)
    (hrun : call.run src c = some c') : Served c call.keyed c' := by
  cases call with
  | touch t e dest p bytes =>
    obtain ⟨⟨c₁, found⟩, ht, rfl⟩ := Option.map_eq_some_iff.mp hrun
    exact served_touchLocked h ht
  | touchAt t e dest off bytes =>
    obtain ⟨⟨c₁, found⟩, ht, rfl⟩ := Option.map_eq_some_iff.mp hrun
    exact served_touchLocked h ht
  | touchBatch t b base p bytes =>
    obtain ⟨⟨c₁, n⟩, ht, rfl⟩ := Option.map_eq_some_iff.mp hrun
    obtain ⟨hwf, hcap, hview, hloaded⟩ := served_touchEach (c := countDedup c b) h ht
    exact ⟨hwf, hcap, hview, hloaded⟩
  | touchBatchAt => exact hseq.elim
  | prefetchBatchAt => exact hseq.elim

theorem served_runAll {calls : List (Source × Call)} (h : c.Wf)
    (hseq : ∀ a ∈ calls, a.2.Sequential) (hrun : runAll calls c = some c') :
    Served c (calls.flatMap fun a => a.2.keyed) c' := by
  induction calls generalizing c with
  | nil =>
    cases hrun
    exact ⟨h, rfl, rfl, rfl⟩
  | cons a calls ih =>
    obtain ⟨src, call⟩ := a
    obtain ⟨hcall, hrest⟩ := List.forall_mem_cons.mp hseq
    rw [runAll] at hrun
    cases hone : call.run src c with
    | none => simp [hone] at hrun
    | some c₁ =>
      rw [hone] at hrun
      have hserved := served_run h hcall hone
      exact hserved.trans (ih hserved.wf hrest hrun)

/-- The second cache is no worse than the first. -/
structure Outdoes (c c' : SliceCache) : Prop where
  resident : ∀ k, (∃ e, c.map k = some e) → ∃ e, c'.map k = some e
  order : c.lru.map Node.key <+: c'.lru.map Node.key
  hits : c.stats.hits ≤ c'.stats.hits
  requests : c.stats.hits + c.stats.misses = c'.stats.hits + c'.stats.misses
  loaded : c'.stats.bytesLoaded ≤ c.stats.bytesLoaded

/-- Two caches that answer the same calls, each call with whatever sources are configured then. -/
theorem runAll_outdoes (cap cap' : Nat) (hcap : cap ≤ cap') (calls calls' : List (Source × Call))
    (hsame : calls.map Prod.snd = calls'.map Prod.snd) (c c' : SliceCache)
    (hseq : ∀ a ∈ calls, a.2.Sequential)
    (hsize : ∀ x ∈ calls.flatMap fun a => a.2.keyed, ∀ y ∈ calls.flatMap fun a => a.2.keyed,
      x.1 = y.1 → x.2.bytes = y.2.bytes)
    (hrun : runAll calls (fresh cap) = some c) (hrun' : runAll calls' (fresh cap') = some c') :
    Outdoes c c' := by
  have hseq' : ∀ a ∈ calls', a.2.Sequential := by
    intro a ha
    have hmem : a.2 ∈ calls.map Prod.snd := hsame ▸ List.mem_map_of_mem ha
    obtain ⟨b, hb, heq⟩ := List.mem_map.mp hmem
    exact heq ▸ hseq b hb
  have hslices : calls'.flatMap (fun a => a.2.keyed) = calls.flatMap fun a => a.2.keyed := by
    have := congrArg (List.flatMap Call.keyed) hsame
    simpa only [List.flatMap_map] using this.symm
  have hs := served_runAll (wf_empty cap) hseq hrun
  have hs' := served_runAll (wf_empty cap') hseq' hrun'
  rw [hslices] at hs'
  generalize calls.flatMap (fun a => a.2.keyed) = its at hs hs' hsize
  -- forget the slices but for their sizes
  have hbytes : ∀ x : Slice, id x.bytes = x.bytes := fun _ => rfl
  have hsizes : ∀ x ∈ its.map (Prod.map id Slice.bytes),
      ∀ y ∈ its.map (Prod.map id Slice.bytes), x.1 = y.1 → x.2 = y.2 := by
    intro x hx y hy hkey
    obtain ⟨x', hx', rfl⟩ := List.mem_map.mp hx
    obtain ⟨y', hy', rfl⟩ := List.mem_map.mp hy
    exact hsize x' hx' y' hy' hkey
  obtain ⟨hbelow, hless⟩ : Lru.Below
      (({} : Lru UInt64 Nat).touchAll id cap (its.map (Prod.map id Slice.bytes)))
      (({} : Lru UInt64 Nat).touchAll id cap' (its.map (Prod.map id Slice.bytes))) ∧ _ :=
    (Lru.Below.refl _).touchAll List.nodup_nil hcap hsizes (by simp) fun _ hx => hx
  have hview : ∀ {cap c}, Served (fresh cap) its c → c.view.map id Slice.bytes =
      ({} : Lru UInt64 Nat).touchAll id cap (its.map (Prod.map id Slice.bytes)) := by
    intro cap c h
    rw [h.view]
    exact (Lru.touchAll_map (s := (fresh cap).view) (Set.injOn_id Set.univ) hbytes
      (fun _ _ => trivial) (fun _ _ => trivial)).symm
  have hloaded : ∀ {cap c}, Served (fresh cap) its c → c.stats.bytesLoaded =
      ({} : Lru UInt64 Nat).missTotal id cap (its.map (Prod.map id Slice.bytes)) := by
    intro cap c h
    have hmap : ((fresh cap).view.map id Slice.bytes).missTotal id cap
        (its.map (Prod.map id Slice.bytes)) = (fresh cap).view.missTotal Slice.bytes cap its :=
      Lru.missTotal_map hbytes
    exact (h.loaded.trans (Nat.zero_add _)).trans hmap.symm
  rw [← hview hs, ← hview hs'] at hbelow
  rw [← hloaded hs, ← hloaded hs'] at hless
  have horder : c.lru.map Node.key <+: c'.lru.map Node.key := by
    have hpre := hbelow.items.map Prod.fst
    have hkeys : ∀ {c : SliceCache}, c.Wf →
        (c.view.map id Slice.bytes).items.map Prod.fst = c.lru.map Node.key := by
      intro c h
      rw [← h.keys_recency]
      simp [Lru.map, SliceCache.view, keys]
    rwa [hkeys hs.wf, hkeys hs'.wf] at hpre
  refine ⟨fun k hk => ?_, horder, hbelow.hits, hbelow.requests, hless⟩
  rw [hs'.wf.resident k]
  rw [hs.wf.resident k] at hk
  exact horder.subset hk

/-- Two pages of cap against one. -/
theorem runAll_outdoes_three : ∃ c c', runAll threeTouches (fresh 4096) = some c ∧
    runAll threeTouches (fresh 8192) = some c' ∧ Outdoes c c' := by
  refine ⟨_, _, rfl, rfl, runAll_outdoes 4096 8192 (by decide) threeTouches threeTouches rfl _ _
    ?_ ?_ rfl rfl⟩
  · simp [threeTouches, Call.Sequential]
  · -- all slices are of one page
    have hpage : ∀ x ∈ threeTouches.flatMap fun a => a.2.keyed, x.2.bytes = 4096 := by
      intro x hx
      simp only [threeTouches, Call.keyed, items, List.flatMap_cons, List.flatMap_nil,
        List.append_nil, List.mem_append, List.mem_map, List.mem_singleton] at hx
      rcases hx with ⟨e, -, rfl⟩ | rfl | rfl
      · rfl
      · rfl
      · rfl
    intro x hx y hy _
    rw [hpage x hx, hpage y hy]

end Cache

end NotreEngine.Cache
