import NotreEngine.Cache.Calls
import NotreEngine.ExactLru

/-!
# The cache and its simulator

The exact replay of `lru-sim.cpp`. The cache picks its victims past a shield of recent keys, and
yet makes the same hits, misses and evictions.
-/
namespace NotreEngine.Cache

open Recency

section Simulator

/-- A cache of the simulator; `order` has the most recent key in front. The iterator an entry
keeps is the one node of `order` with its key. -/
structure LruSim (κ : Type) where
  order : List κ := []
  cache : κ → Option Nat := fun _ => none
  used : Nat := 0
  hits : Nat := 0
  misses : Nat := 0
  missBytes : Nat := 0
  evictions : Nat := 0

namespace LruSim

variable {κ : Type}

/-- The keys of the simulator with their sizes, in order of use. -/
def items (s : LruSim κ) : List (κ × Nat) := s.order.map fun k => (k, (s.cache k).getD 0)

def view (s : LruSim κ) : Lru κ Nat := ⟨s.items, s.hits, s.misses, s.evictions⟩

structure Wf (s : LruSim κ) : Prop where
  nodup : s.order.Nodup
  resident : ∀ k, (∃ b, s.cache k = some b) ↔ k ∈ s.order
  used_eq : s.used = total id s.items

variable {s s' : LruSim κ} {k : κ} {b cap : Nat}

theorem keys_items : keys s.items = s.order := by
  simp [items, keys, Function.comp_def]

theorem mem_items (hk : s.cache k = some b) (hm : k ∈ s.order) : (k, b) ∈ s.items :=
  List.mem_map.mpr ⟨k, hm, by rw [hk, Option.getD_some]⟩

/-- What the eviction loop leaves: the keys that stay when room is made, the others counted. -/
structure Evicted (cap b : Nat) (s s' : LruSim κ) : Prop where
  wf : s'.Wf
  items : s'.items = roomFor id cap b s.items
  evictions : s'.evictions + s'.items.length = s.evictions + s.items.length
  hits : s'.hits = s.hits
  misses : s'.misses = s.misses

theorem Evicted.refl (h : s.Wf) (hs : s.items = roomFor id cap b s.items) : Evicted cap b s s :=
  ⟨h, hs, rfl, rfl, rfl⟩

variable [DecidableEq κ]

def popBack (victim : κ) (s : LruSim κ) : LruSim κ :=
  { s with
    order := s.order.dropLast
    used := s.used - (s.cache victim).getD 0
    cache := Function.update s.cache victim none
    evictions := s.evictions + 1 }

/-- Each round removes a key, so their number bounds the rounds. -/
def evictLoop (cap b : Nat) : Nat → LruSim κ → LruSim κ
  | 0, s => s
  | n + 1, s =>
    if s.used + b > cap then
      match s.order.getLast? with
      | some victim => evictLoop cap b n (s.popBack victim)
      | none => s
    else s

def touch (cap : Nat) (k : κ) (b : Nat) (s : LruSim κ) : LruSim κ :=
  match s.cache k with
  | some _ => { s with hits := s.hits + 1, order := k :: s.order.erase k }
  | none =>
    let s := { s with misses := s.misses + 1, missBytes := s.missBytes + b }
    let s := evictLoop cap b s.order.length s
    if b ≤ cap then
      { s with
        order := k :: s.order
        cache := Function.update s.cache k (some b)
        used := s.used + b }
    else s

def replay (cap : Nat) (touches : List (κ × Nat)) : LruSim κ :=
  touches.foldl (fun s t => s.touch cap t.1 t.2) {}

/-- The loop's step takes off the least recent item. -/
theorem popBack_spec {l : List κ} (h : s.Wf) (hl : s.order = l ++ [k]) :
    (s.popBack k).order = l ∧ (s.popBack k).Wf ∧
      ∃ b, s.items = (s.popBack k).items ++ [(k, b)] := by
  have hnodup := h.nodup
  rw [hl, List.nodup_append] at hnodup
  have hk : ∀ x ∈ l, x ≠ k := fun x hx => hnodup.2.2 x hx k (List.mem_singleton_self k)
  obtain ⟨b, hb⟩ := (h.resident k).mpr (by simp [hl])
  have horder : (s.popBack k).order = l := by simp [popBack, hl]
  have hgone : (s.popBack k).cache k = none := by simp [popBack]
  have hother : ∀ x, x ≠ k → (s.popBack k).cache x = s.cache x := by
    intro x hx
    simp [popBack, hx]
  have hitems : s.items = (s.popBack k).items ++ [(k, b)] := by
    rw [items, items, horder, hl, List.map_append]
    congr 1
    · exact List.map_congr_left fun x hx => by rw [hother x (hk x hx)]
    · simp [hb]
  refine ⟨horder, ⟨horder ▸ hnodup.1, ?_, ?_⟩, b, hitems⟩
  · intro x
    rw [horder]
    by_cases hx : x = k
    · subst hx
      refine iff_of_false ?_ fun hm => hk x hm rfl
      rintro ⟨b', hb'⟩
      rw [hgone] at hb'
      cases hb'
    · rw [hother x hx, h.resident x, hl]
      simp [hx]
  · have hused : (s.popBack k).used = s.used - b := by rw [popBack, hb, Option.getD_some]
    have htotal := h.used_eq
    rw [hitems, total_append] at htotal
    simp only [total_cons, total_nil, id] at htotal
    omega

theorem evicted_loop (n : Nat) (h : s.Wf) (hn : s.order.length ≤ n) :
    Evicted cap b s (evictLoop cap b n s) := by
  have hempty : s.order = [] → Evicted cap b s s := by
    intro hnil
    exact .refl h (by simp [items, hnil, roomFor, fitting])
  induction n generalizing s with
  | zero => exact hempty (List.eq_nil_of_length_eq_zero (by omega))
  | succ n ih =>
    rw [evictLoop]
    split
    · rename_i hfull
      rcases List.eq_nil_or_concat s.order with hnil | ⟨l, x, hl⟩
      · rw [hnil]
        exact hempty hnil
      · rw [List.concat_eq_append] at hl
        obtain ⟨horder, hwf, bx, hitems⟩ := popBack_spec h hl
        have hlen : (s.popBack x).order.length ≤ n := by
          rw [hl, List.length_append, List.length_singleton] at hn
          rw [horder]
          omega
        have hrest := ih hwf hlen fun hnil => .refl hwf (by simp [items, hnil, roomFor, fitting])
        rw [hl, List.getLast?_concat]
        refine ⟨hrest.wf, ?_, ?_, hrest.hits, hrest.misses⟩
        · rw [hrest.items, hitems]
          apply (roomFor_append_singleton _).symm
          rw [← hitems, ← h.used_eq]
          exact hfull
        · rw [hrest.evictions, hitems, List.length_append, List.length_singleton]
          simp only [popBack]
          omega
    · rename_i hfits
      apply Evicted.refl h
      rw [roomFor_of_fits]
      rw [← h.used_eq]
      omega

theorem view_hit {b' : Nat} (h : s.Wf) (hb : s.cache k = some b') :
    (s.touch cap k b).Wf ∧ (s.touch cap k b).view = s.view.touch id cap k b := by
  have hm : k ∈ s.order := (h.resident k).mp ⟨b', hb⟩
  have hperm : (k :: s.order.erase k).Perm s.order := (List.perm_cons_erase hm).symm
  have htouch : s.touch cap k b = { s with hits := s.hits + 1, order := k :: s.order.erase k } := by
    simp only [touch, hb]
  have hrefresh : (s.touch cap k b).items = refresh k s.items := by
    rw [refresh_eq (keys_items ▸ h.nodup) (mem_items hb hm), htouch, items, items, List.filter_map,
      h.nodup.erase_eq_filter, List.map_cons, hb, Option.getD_some]
    congr 2
    apply List.filter_congr
    intro x _
    by_cases hx : x = k
    · simp [hx]
    · simp [hx]
  have hin : k ∈ keys s.view.items := keys_items.symm ▸ hm
  rw [Lru.touch, if_pos hin, view, hrefresh]
  refine ⟨⟨?_, ?_, ?_⟩, ?_⟩
  · rw [htouch]
    exact hperm.nodup_iff.mpr h.nodup
  · intro x
    rw [htouch]
    exact (h.resident x).trans hperm.mem_iff.symm
  · rw [hrefresh, total_perm refresh_perm, ← h.used_eq, htouch]
  · rw [htouch]
    rfl

/-- A key that is put in front of the order with its size. -/
def pushFront (k : κ) (b : Nat) (s : LruSim κ) : LruSim κ :=
  { s with
    order := k :: s.order
    cache := Function.update s.cache k (some b)
    used := s.used + b }

theorem items_pushFront (hk : k ∉ s.order) : (s.pushFront k b).items = (k, b) :: s.items := by
  have hlist : (s.pushFront k b).items =
      (k :: s.order).map fun x => (x, (Function.update s.cache k (some b) x).getD 0) := rfl
  rw [hlist, List.map_cons, Function.update_self, Option.getD_some, items]
  congr 1
  apply List.map_congr_left
  intro x hx
  rw [Function.update_of_ne (ne_of_mem_of_not_mem hx hk)]

theorem wf_pushFront (h : s.Wf) (hk : k ∉ s.order) : (s.pushFront k b).Wf := by
  refine ⟨List.nodup_cons.mpr ⟨hk, h.nodup⟩, ?_, ?_⟩
  · intro x
    by_cases hx : x = k
    · simp [pushFront, hx]
    · simp only [pushFront, Function.update_of_ne hx, List.mem_cons, hx, false_or]
      exact h.resident x
  · rw [items_pushFront hk, total_cons, ← h.used_eq, id, Nat.add_comm]
    rfl

theorem view_miss (h : s.Wf) (hk : s.cache k = none) :
    (s.touch cap k b).Wf ∧ (s.touch cap k b).view = s.view.touch id cap k b := by
  have hout : k ∉ s.order := by
    intro hm
    obtain ⟨b', hb'⟩ := (h.resident k).mpr hm
    rw [hk] at hb'
    cases hb'
  have hcounted : ({ s with misses := s.misses + 1, missBytes := s.missBytes + b } : LruSim κ).Wf :=
    ⟨h.nodup, h.resident, h.used_eq⟩
  have hev : Evicted cap b { s with misses := s.misses + 1, missBytes := s.missBytes + b }
      (evictLoop cap b s.order.length
        { s with misses := s.misses + 1, missBytes := s.missBytes + b }) :=
    evicted_loop _ hcounted le_rfl
  have htouch : s.touch cap k b =
      let s' := evictLoop cap b s.order.length
        { s with misses := s.misses + 1, missBytes := s.missBytes + b }
      if b ≤ cap then s'.pushFront k b else s' := by simp only [touch, hk, pushFront]
  generalize evictLoop cap b s.order.length
    { s with misses := s.misses + 1, missBytes := s.missBytes + b } = s' at hev htouch
  have hitems : s'.items = roomFor id cap b s.items := hev.items
  have hlen : s'.evictions = s.evictions + (s.items.length - s'.items.length) := by
    have hle : s'.items.length ≤ s.items.length := by
      rw [hitems]
      exact roomFor_isPrefix.length_le
    have heq : s'.evictions + s'.items.length = s.evictions + s.items.length := hev.evictions
    omega
  have hgone : k ∉ s'.order := by
    rw [← keys_items, hitems]
    exact fun hm => hout (keys_items (s := s) ▸ keys_subset roomFor_isPrefix.subset hm)
  have hmiss : k ∉ keys s.view.items := keys_items.symm ▸ hout
  have hview : s.view.touch id cap k b =
      ⟨if b ≤ cap then (k, b) :: s'.items else s'.items, s'.hits, s'.misses, s'.evictions⟩ := by
    rw [Lru.touch, if_neg hmiss, Recency.touch, if_neg hmiss, hev.hits, hev.misses, hlen, hitems]
    rfl
  rw [hview, htouch]
  by_cases hb : b ≤ cap
  · simp only [if_pos hb]
    refine ⟨wf_pushFront hev.wf hgone, ?_⟩
    rw [view, items_pushFront hgone]
    rfl
  · simp only [if_neg hb]
    exact ⟨hev.wf, rfl⟩

/-- A touch of the simulator is exact replacement on its items. -/
theorem touch_spec (cap b : Nat) (k : κ) (h : s.Wf) :
    (s.touch cap k b).Wf ∧ (s.touch cap k b).view = s.view.touch id cap k b := by
  cases hk : s.cache k with
  | some b' => exact view_hit h hk
  | none => exact view_miss h hk

/-- A replay is exact replacement from the first touch on. -/
theorem replay_spec (cap : Nat) (touches : List (κ × Nat)) :
    (replay cap touches).Wf ∧
      (replay cap touches).view = ({} : Lru κ Nat).touchAll id cap touches := by
  have hrun : ∀ (touches : List (κ × Nat)) (s : LruSim κ), s.Wf →
      (touches.foldl (fun s t => s.touch cap t.1 t.2) s).Wf ∧
        (touches.foldl (fun s t => s.touch cap t.1 t.2) s).view = s.view.touchAll id cap touches := by
    intro touches
    induction touches with
    | nil => exact fun s h => ⟨h, rfl⟩
    | cons t touches ih =>
      intro s h
      obtain ⟨hwf, hview⟩ := touch_spec cap t.2 t.1 h
      obtain ⟨hwf', hview'⟩ := ih (s.touch cap t.1 t.2) hwf
      refine ⟨hwf', hview'.trans ?_⟩
      rw [hview]
      rfl
  exact hrun touches {} ⟨List.nodup_nil, by simp, rfl⟩

end LruSim

end Simulator

section Cache

variable {src : Source} {c c' : SliceCache} {k : UInt64} {s : Slice} {ptr : Option Nat} {off : Nat}
  {found : Bool}

/-- The resident slices of the cache in order of use, with its counters. -/
def SliceCache.view (c : SliceCache) : Lru UInt64 Slice :=
  ⟨c.recency, c.stats.hits, c.stats.misses, c.stats.evictions⟩

/-- A touch of the cache is exact replacement on its slices. -/
theorem touchLocked_view (h : c.Wf) (ht : touchLocked src c k s ptr off = some (c', found)) :
    c'.view = c.view.touch Slice.bytes c.hardCapBytes k s := by
  have hrec := touchLocked_recency h ht
  cases hk : c.map k with
  | some e =>
    have hin : k ∈ keys c.view.items := h.mem_keys_iff.mpr ⟨e, hk⟩
    obtain ⟨rfl, _⟩ := touchLocked_hit hk ht
    rw [Lru.touch, if_pos hin, SliceCache.view, recency_refreshHit h hk]
    rfl
  | none =>
    have hout : k ∉ keys c.view.items := h.absent_iff.mpr hk
    have hroom := roomMade h s.bytes
    obtain ⟨ev, hev, _, hstats⟩ := hroom.evicted
    have hlen : ev.length = c.recency.length - (makeRoomLocked c s.bytes).recency.length := by
      rw [hev, List.length_append]
      omega
    obtain ⟨f, hf, rfl, _⟩ := touchLocked_fill h hk ht
    rw [Lru.touch, if_neg hout, SliceCache.view, hrec, commitLocked_stats, countMiss,
      fillSlice_stats hf, hstats, hlen, hroom.recency]
    rfl

variable {tensor : Str} {b : Batch} {base srcBase bytes n n' : Nat} {es : List UInt32}

theorem touchEach_view (h : c.Wf)
    (ht : touchEach src tensor base srcBase bytes es c n = some (c', n')) :
    c'.view = c.view.touchAll Slice.bytes c.hardCapBytes (Cache.items tensor base bytes es) := by
  induction es generalizing c n with
  | nil =>
    cases ht
    rfl
  | cons e es ih =>
    obtain ⟨c₁, found, h₁, hrest⟩ := touchEach_cons ht
    obtain ⟨hwf, hcap⟩ := touchLocked_wf h h₁
    rw [ih hwf hrest, hcap, touchLocked_view h h₁]
    rfl

/-- A slice of a tensor, as the simulator keys it. -/
def sliceKey (p : Str × UInt32) : UInt64 := key p.1 p.2

/-- The calls that touch their slices one after the other. -/
def Call.Sequential : Call → Prop
  | .touch .. | .touchAt .. | .touchBatch .. => True
  | .touchBatchAt .. | .prefetchBatchAt .. => False

/-- The touches of a sequential call, with their bytes, in the order made. -/
def Call.touches : Call → List ((Str × UInt32) × Nat)
  | .touch t e _ _ bytes => [((t, e), bytes)]
  | .touchAt t e _ _ bytes => [((t, e), bytes)]
  | .touchBatch t b _ _ bytes => b.uniq.map fun e => ((t, e), bytes)
  | .touchBatchAt .. | .prefetchBatchAt .. => []

/-- The state a sequence of calls returns in, each with the source then configured. -/
def runAll : List (Source × Call) → SliceCache → Option SliceCache
  | [], c => some c
  | (src, call) :: calls, c =>
    match call.run src c with
    | some c => runAll calls c
    | none => none

/-- The slices a sequential call touches, under their keys. -/
theorem run_view {call : Call} (h : c.Wf) (hseq : call.Sequential)
    (hrun : call.run src c = some c') :
    c'.Wf ∧ c'.hardCapBytes = c.hardCapBytes ∧ ∃ its,
      its.map (Prod.map id Slice.bytes) = call.touches.map (Prod.map sliceKey id) ∧
        c'.view = c.view.touchAll Slice.bytes c.hardCapBytes its := by
  cases call with
  | touch t e dest p bytes =>
    obtain ⟨⟨c₁, found⟩, ht, rfl⟩ := Option.map_eq_some_iff.mp hrun
    obtain ⟨hwf, hcap⟩ := touchLocked_wf h ht
    exact ⟨hwf, hcap, [(key t e, ⟨t, e, dest, bytes⟩)], rfl, touchLocked_view h ht⟩
  | touchAt t e dest off bytes =>
    obtain ⟨⟨c₁, found⟩, ht, rfl⟩ := Option.map_eq_some_iff.mp hrun
    obtain ⟨hwf, hcap⟩ := touchLocked_wf h ht
    exact ⟨hwf, hcap, [(key t e, ⟨t, e, dest, bytes⟩)], rfl, touchLocked_view h ht⟩
  | touchBatch t b base p bytes =>
    obtain ⟨⟨c₁, n⟩, ht, rfl⟩ := Option.map_eq_some_iff.mp hrun
    obtain ⟨hwf, hcap, _⟩ := touchBatch_spec h ht
    refine ⟨hwf, hcap, items t base bytes b.uniq, ?_, touchEach_view (c := countDedup c b) h ht⟩
    simp [items, Call.touches, sliceKey, windowSlice, Function.comp_def]
  | touchBatchAt => exact hseq.elim
  | prefetchBatchAt => exact hseq.elim

theorem runAll_view {calls : List (Source × Call)} (h : c.Wf)
    (hseq : ∀ a ∈ calls, a.2.Sequential) (hrun : runAll calls c = some c') :
    c'.Wf ∧ ∃ its, its.map (Prod.map id Slice.bytes) =
        (calls.flatMap fun a => a.2.touches).map (Prod.map sliceKey id) ∧
      c'.view = c.view.touchAll Slice.bytes c.hardCapBytes its := by
  induction calls generalizing c with
  | nil =>
    cases hrun
    exact ⟨h, [], rfl, rfl⟩
  | cons a calls ih =>
    obtain ⟨src, call⟩ := a
    obtain ⟨hcall, hrest⟩ := List.forall_mem_cons.mp hseq
    rw [runAll] at hrun
    cases hone : call.run src c with
    | none => simp [hone] at hrun
    | some c₁ =>
      rw [hone] at hrun
      obtain ⟨hwf, hcap, its, hits, hview⟩ := run_view h hcall hone
      obtain ⟨hwf', its', hits', hview'⟩ := ih hwf hrest hrun
      refine ⟨hwf', its ++ its', ?_, ?_⟩
      · rw [List.map_append, hits, hits', ← List.map_append]
        rfl
      · rw [hview', hview, hcap, Lru.touchAll_append]

/-- The cache holds the slices the simulator holds, in the same order of use, and has counted the
same. -/
structure Agrees (c : SliceCache) (s : LruSim (Str × UInt32)) : Prop where
  resident : ∀ k, (∃ e, c.map k = some e) ↔ ∃ p ∈ s.order, sliceKey p = k
  order : c.lru.map Node.key = s.order.map sliceKey
  used : c.used = s.used
  hits : c.stats.hits = s.hits
  misses : c.stats.misses = s.misses
  evictions : c.stats.evictions = s.evictions

/-- Along any sequence of sequential calls the shielded cache is the exact cache of the simulator,
as long as no two of the slices touched share a key. -/
theorem runAll_agrees_replay (cap : Nat) (calls : List (Source × Call)) (c : SliceCache)
    (hseq : ∀ a ∈ calls, a.2.Sequential)
    (hkeys : Set.InjOn sliceKey {p | ∃ a ∈ calls, ∃ b, (p, b) ∈ a.2.touches})
    (hrun : runAll calls (fresh cap) = some c) :
    Agrees c (LruSim.replay cap (calls.flatMap fun a => a.2.touches)) := by
  obtain ⟨hwf, its, hits, hview⟩ := runAll_view (wf_empty cap) hseq hrun
  obtain ⟨hsim, hsimview⟩ := LruSim.replay_spec cap (calls.flatMap fun a => a.2.touches)
  have htouched : ∀ p ∈ keys (calls.flatMap fun a => a.2.touches),
      p ∈ {p | ∃ a ∈ calls, ∃ b, (p, b) ∈ a.2.touches} := by
    intro p hp
    obtain ⟨b, hb⟩ := mem_keys.mp hp
    obtain ⟨a, ha, hab⟩ := List.mem_flatMap.mp hb
    exact ⟨a, ha, b, hab⟩
  have hsize : ∀ s : Slice, id s.bytes = s.bytes := fun _ => rfl
  have hcache : c.view.map id Slice.bytes =
      ({} : Lru UInt64 Nat).touchAll id cap (its.map (Prod.map id Slice.bytes)) := by
    rw [hview]
    exact (Lru.touchAll_map (s := (fresh cap).view) (Set.injOn_id Set.univ) hsize
      (fun _ _ => trivial) (fun _ _ => trivial)).symm
  have hboth : c.view.map id Slice.bytes =
      (LruSim.replay cap (calls.flatMap fun a => a.2.touches)).view.map sliceKey id := by
    rw [hcache, hits, hsimview]
    exact Lru.touchAll_map (s := {}) hkeys (fun _ => rfl) (fun _ hk => by cases hk) htouched
  generalize LruSim.replay cap (calls.flatMap fun a => a.2.touches) = s at hsim hboth
  have hitems : c.recency.map (Prod.map id Slice.bytes) = s.items.map (Prod.map sliceKey id) :=
    congrArg Lru.items hboth
  have horder : c.lru.map Node.key = s.order.map sliceKey := by
    have := congrArg keys hitems
    rw [keys_map, keys_map, List.map_id, hwf.keys_recency, LruSim.keys_items] at this
    exact this
  refine ⟨?_, horder, ?_, congrArg Lru.hits hboth, congrArg Lru.misses hboth,
    congrArg Lru.evictions hboth⟩
  · intro k
    rw [hwf.resident k, horder, List.mem_map]
  · calc c.used = total Slice.bytes c.recency := hwf.used_eq
      _ = total id (c.recency.map (Prod.map id Slice.bytes)) := (total_map hsize).symm
      _ = total id (s.items.map (Prod.map sliceKey id)) := by rw [hitems]
      _ = total id s.items := total_map fun _ => rfl
      _ = s.used := hsim.used_eq.symm

/-- Under a cap of two pages the last of three slices evicts the second. -/
def threeTouches : List (Source × Call) :=
  [(onesSource, .touchBatch [65] pairBatch 0 0 4096), (onesSource, .touch [65] 0 0 0 4096),
    (onesSource, .touchAt [65] 2 8192 0 4096)]

theorem runAll_agrees_replay_three : ∃ c, runAll threeTouches (fresh 8192) = some c ∧
    Agrees c (LruSim.replay 8192 (threeTouches.flatMap fun a => a.2.touches)) := by
  refine ⟨_, rfl, runAll_agrees_replay 8192 threeTouches _ ?_ ?_ rfl⟩
  · simp [threeTouches, Call.Sequential]
  · -- all slices are of one tensor, whose keys are distinct
    have htensor : ∀ p ∈ {p | ∃ a ∈ threeTouches, ∃ b, (p, b) ∈ a.2.touches}, p.1 = [65] := by
      rintro p ⟨a, ha, b, hb⟩
      fin_cases ha
      · simp only [Call.touches, List.mem_map] at hb
        obtain ⟨e, _, heq⟩ := hb
        exact (congrArg (fun x => x.1.1) heq).symm
      · exact congrArg (fun x => x.1.1) (List.mem_singleton.mp hb)
      · exact congrArg (fun x => x.1.1) (List.mem_singleton.mp hb)
    intro p hp q hq heq
    rw [sliceKey, sliceKey, htensor p hp, htensor q hq] at heq
    exact Prod.ext ((htensor p hp).trans (htensor q hq).symm) (key_injective [65] heq)

end Cache

end NotreEngine.Cache
