import NotreEngine.Stream.Prefetcher

/-!
# Reading ahead while nodes are served

The worker reads only slices of routed tensors, whatever is evicted meanwhile. As long as nothing is
evicted, the node of the last ask stays served at every moment until the next.
-/
namespace NotreEngine.Stream

open Cache Gguf Layout Recency Transition PagedMemory
open NotreEngine.Config (PfMode)

/-- The ids of an item are experts. -/
def Experts (P : Process) (it : PrefetchItem) : Prop := ∀ e ∈ it.2, e.toNat < expertCount P

/-- Windows are where `mmap` put them, for the tensors they are named after. -/
def Placed (P : Process) (st : State) : Prop :=
  ∀ t win, st.windows t = some win → routedInfo P t = some win.ti ∧ win.base = P.mmap t ∧
    win.fileOff = win.ti.absOffset.toNat

/-- A job copies a slice of a routed tensor to its place in the window. -/
def IsSlice (P : Process) (m : Miss) : Prop :=
  ∃ t ti e, routedInfo P t = some ti ∧ e.toNat < expertCount P ∧
    m = windowMiss t (P.mmap t) ti.absOffset.toNat ti.bytesPerExpert.toNat e

/-- The items an operation on the queue brings. -/
def QueueOp.items : QueueOp → List PrefetchItem
  | .push it => [it]
  | .refill its => its
  | .shut => []

/-- All ids that are kept anywhere for the worker are experts. -/
structure Sourced (P : Process) (s : Overlap) : Prop where
  fresh : ∀ l, s.main.freshKept l = []
  slots : ∀ b, ∀ it ∈ s.ahead.stepIds b, Experts P it
  ops : ∀ op ∈ s.ops, ∀ it ∈ op.items, Experts P it
  queued : ∀ it ∈ s.queue.items, Experts P it
  held : ∀ it, s.queue.consumer = .holding it → Experts P it

/-- What the worker reads it reads to where it belongs. -/
structure Confined (P : Process) (s : Overlap) : Prop where
  placed : Placed P s.main
  jobs : ∀ f, s.fetch = some f → (∀ m ∈ f.jobs, IsSlice P m) ∧ f.todo ⊆ f.jobs

variable {P : Process} {g : Gate} {mode : PfMode} {s s' : Overlap} {e : OverlapEvent}
  {st st' : State} {t : MulMatId} {visit : Visit} {it : PrefetchItem} {name : Str}

section Windows

theorem Placed.ensureWindow (h : Placed P st) (he : ensureWindow P st name = some st') :
    Placed P st' := by
  have hnew : ∀ ti, routedInfo P name = some ti → ∀ st', st'.windows =
      Function.update st.windows name (some (newWindow P st name ti)) → Placed P st' := by
    intro ti hti st' hst t win hwin
    rw [hst] at hwin
    by_cases ht : t = name
    · subst ht
      rw [Function.update_self] at hwin
      obtain rfl := Option.some.inj hwin
      exact ⟨hti, rfl, rfl⟩
    · rw [Function.update_of_ne ht] at hwin
      exact h t win hwin
  obtain rfl | ⟨ti, _, hti, ⟨_, rfl⟩ | ⟨orig, _, _, rfl⟩⟩ := ensureWindow_cases he
  · exact h
  · exact hnew ti hti _ rfl
  · exact hnew ti hti _ rfl

theorem Placed.askWindow {w ids : Tensor} {win : Window} (h : Placed P st)
    (hwin : st.windows w.name = some win) (ha : askWindow P st visit w ids win = some st') :
    Placed P st' := by
  obtain rfl | ⟨c, _, rfl⟩ := askWindow_takes ha
  · exact h
  · unfold rebind
    split
    · intro t win' hwin'
      by_cases ht : t = w.name
      · subst ht
        simp only [Function.update_self, Option.some.injEq] at hwin'
        subst hwin'
        exact h w.name win hwin
      · simp only [Function.update_of_ne ht] at hwin'
        exact h t win' hwin'
    · exact h

theorem Placed.ask (h : Placed P st) (ha : ask P st visit t = some st') : Placed P st' := by
  unfold Stream.ask at ha
  split at ha
  · split at ha
    · rwa [← Option.some.inj ha]
    · split at ha
      · cases ha
      · rename_i st₁ hensure
        have h₁ := h.ensureWindow hensure
        split at ha
        · rwa [← Option.some.inj ha]
        · rename_i win hwin
          exact h₁.askWindow hwin ha
  · rwa [← Option.some.inj ha]

end Windows

section Ids

/-- An ask leaves the ids of its own node for the lookahead. -/
theorem askedIds_spec (hfresh : ∀ l, st.freshKept l = []) {v : List UInt32}
    (h : askedIds P st t = some (name, v)) : v = readIdsStrided t.ids := by
  unfold askedIds at h
  split at h
  · rename_i w ids hd
    have hids : ids = t.ids := by
      rcases discover_cases P st t with hd' | ⟨_, hd' | ⟨hd', _⟩⟩ <;> rw [hd'] at hd
      · exact (Option.some.inj (Prod.mk.inj hd).2).symm
      · cases (Prod.mk.inj hd).1
      · exact (Option.some.inj (Prod.mk.inj hd).2).symm
    subst hids
    split at h
    · cases h
    · split at h
      · cases h
      · rename_i st₁ hensure
        have hkept := ensureWindow_freshKept hensure
        have htaken : idsTaken st₁ w t.ids = readIdsStrided t.ids := by
          simp [idsTaken, hkept, hfresh]
        split at h
        · cases h
        · split at h
          · cases h
          · split at h
            · cases h
            · split at h
              · cases h
              · rw [← htaken]
                exact (Prod.mk.inj (Option.some.inj h)).2.symm
  · cases h

/-- The lookahead queues what is in its slots. -/
theorem asked_sourced {a : Ahead} {v : List UInt32} {Q : PrefetchItem → Prop} (mode : PfMode)
    (hslots : ∀ b, ∀ it ∈ a.stepIds b, Q it) (hv : Q (name, v)) :
    (∀ b, ∀ it ∈ (a.asked mode name v).2.stepIds b, Q it) ∧ ∀ it ∈ (a.asked mode name v).1, Q it := by
  have hrec : ∀ b, ∀ it ∈ (a.record mode name v).stepIds b, Q it := by
    intro b it hit
    unfold Ahead.record at hit
    split at hit
    · exact hslots b it hit
    · by_cases hb : b = a.idSlot
      · subst hb
        simp only [Function.update_self] at hit
        rcases Assoc.mem_put hit with rfl | hold
        · exact hv
        · exact hslots _ it hold
      · simp only [Function.update_of_ne hb] at hit
        exact hslots b it hit
  unfold Ahead.asked Ahead.lookaheadPush
  split
  · exact ⟨hrec, nofun⟩
  · simp only
    split
    · exact ⟨hrec, nofun⟩
    · refine ⟨hrec, fun it hit => ?_⟩
      have hfind := ((lookLoop_looks _ _ _ _).sourced it hit).2.1
      exact hrec _ it (Assoc.mem_of_find hfind)

theorem Sourced.ask (h : Sourced P s) (ha : ask P s.main visit t = some st)
    (hids : ∀ e ∈ readIdsStrided t.ids, e.toNat < expertCount P) :
    Sourced P (s.ask P mode t st) := by
  have hfresh : ∀ l, st.freshKept l = [] := by
    intro l
    rw [ask_freshKept ha, h.fresh]
  unfold Overlap.ask
  cases hasked : askedIds P s.main t with
  | none => exact ⟨hfresh, h.slots, h.ops, h.queued, h.held⟩
  | some r =>
    obtain ⟨name, v⟩ := r
    have hv : Experts P (name, v) := by
      rw [Experts, askedIds_spec h.fresh hasked]
      exact hids
    obtain ⟨hslots, hpushed⟩ := asked_sourced mode h.slots hv
    refine ⟨hfresh, hslots, ?_, h.queued, h.held⟩
    intro op hop it hit
    obtain ⟨it', hit', rfl⟩ := List.mem_map.mp hop
    obtain rfl := List.mem_singleton.mp hit
    exact hpushed it hit'

theorem Sourced.queueOp (h : Sourced P s) {op : QueueOp} {ops : List QueueOp}
    (hops : s.ops = op :: ops) : Sourced P { s with ops := ops, queue := op.apply s.queue } := by
  have hall := h.ops
  rw [hops] at hall
  obtain ⟨hop, hrest⟩ := List.forall_mem_cons.mp hall
  refine ⟨h.fresh, h.slots, hrest, ?_, ?_⟩
  · cases op with
    | push it =>
      intro it' hit
      rcases List.mem_append.mp hit with hold | hnew
      · exact h.queued it' hold
      · exact hop it' hnew
    | refill its => exact hop
    | shut => exact h.queued
  · cases op <;> exact h.held

theorem Sourced.check (h : Sourced P s) : Sourced P { s with queue := s.queue.check } := by
  have hqueued := h.queued
  cases hi : s.queue.items with
  | cons x xs =>
    rw [hi] at hqueued
    obtain ⟨hx, hxs⟩ := List.forall_mem_cons.mp hqueued
    rw [WorkQueue.check_cons hi]
    refine ⟨h.fresh, h.slots, h.ops, hxs, ?_⟩
    intro it hit
    obtain rfl := WorkQueue.Consumer.holding.inj hit
    exact hx
  | nil =>
    rw [WorkQueue.check_nil hi]
    refine ⟨h.fresh, h.slots, h.ops, by rw [hi]; nofun, fun it hit => ?_⟩
    cases hstop : s.queue.stop <;> simp [hstop] at hit

theorem sourced_step (h : Sourced P s) (hs : (overlap P g mode).step s e s') : Sourced P s' := by
  obtain ⟨hs, hids⟩ := hs
  cases hs with
  | route _ hnamed hrun =>
    obtain ⟨l, hname⟩ := hnamed
    rw [callback, router_of_named hname] at hrun
    obtain rfl := Option.some.inj hrun
    exact h
  | ask _ ha => exact h.ask ha hids
  | stepBoundary _ =>
    refine ⟨h.fresh, fun b it hit => ?_, h.ops, h.queued, h.held⟩
    by_cases hb : b = !s.ahead.idSlot
    · subst hb
      simp [Overlap.call, Ahead.call, Ahead.stepBoundary] at hit
    · simp only [Overlap.call, Ahead.call, Ahead.stepBoundary, Function.update_of_ne hb] at hit
      exact h.slots b it hit
  | kick _ _ horder =>
    refine ⟨h.fresh, h.slots, fun op hop it hit => ?_, h.queued, h.held⟩
    obtain rfl := List.mem_singleton.mp hop
    exact h.slots _ it (List.mem_of_mem_filter (horder.mem_iff.mp hit))
  | stop _ =>
    refine ⟨h.fresh, h.slots, fun op hop it hit => ?_, h.queued, h.held⟩
    obtain rfl := List.mem_singleton.mp hop
    cases hit
  | queueOp hops _ => exact h.queueOp hops
  | notify _ =>
    refine ⟨h.fresh, h.slots, h.ops, h.queued, fun it hit => h.held it ?_⟩
    change s.queue.consumer.roused = _ at hit
    cases hc : s.queue.consumer <;> rw [hc] at hit <;> first | exact hit | cases hit
  | check _ _ => exact h.check
  | wake _ => exact ⟨h.fresh, h.slots, h.ops, h.queued, fun _ hheld => by cases hheld⟩
  | skip _ _ _ => exact ⟨h.fresh, h.slots, h.ops, h.queued, fun _ hheld => by cases hheld⟩
  | commit _ _ => exact ⟨h.fresh, h.slots, h.ops, h.queued, fun _ hheld => by cases hheld⟩
  | _ => exact ⟨h.fresh, h.slots, h.ops, h.queued, h.held⟩

theorem sourced_reachable (h : (overlap P g mode).Reachable s) : Sourced P s := by
  refine h.invariant ?_ fun _ _ _ ih hs => sourced_step ih hs
  rintro _ ⟨cap, rfl⟩
  exact ⟨fun _ => rfl, nofun, nofun, nofun, nofun⟩

end Ids

section Confinement

/-- The jobs of an item are slices of its tensor. -/
theorem isSlice_jobsOf (h : Placed P st) (hit : Experts P it) :
    ∀ m ∈ jobsOf P st visit it, IsSlice P m := by
  intro m hm
  unfold jobsOf at hm
  split at hm
  · rename_i win _ hwin _
    obtain ⟨hti, hbase, hoff⟩ := h _ _ hwin
    obtain ⟨e, he, rfl⟩ := List.mem_map.mp hm
    have hin := (visit.batch (it.2.take (idCount it.2).toNatClampNeg)).mem_uniq e
    rw [visit.experts] at hin
    refine ⟨it.1, win.ti, e, hti, ?_, ?_⟩
    · exact hit e (List.mem_of_mem_take (hin.mp (List.mem_of_mem_filter he)))
    · rw [windowMiss, hbase, hoff]
  · cases hm

theorem confined_step (h : Confined P s) (hsrc : Sourced P s)
    (hs : OverlapStep P g mode s e s') : Confined P s' := by
  cases hs with
  | route _ hnamed hrun =>
    obtain ⟨l, hname⟩ := hnamed
    rw [callback, router_of_named hname] at hrun
    obtain rfl := Option.some.inj hrun
    exact h
  | ask _ ha =>
    refine ⟨?_, ?_⟩
    · rw [ask_main]
      exact h.placed.ask ha
    · rw [ask_fetch]
      exact h.jobs
  | skip _ _ _ => exact ⟨h.placed, nofun⟩
  | filter hc _ hf =>
    refine ⟨h.placed, fun f hf' => ?_⟩
    obtain rfl := Option.some.inj hf'
    obtain rfl := started_eq_some hf
    exact ⟨isSlice_jobsOf h.placed (hsrc.held _ hc), List.Subset.refl _⟩
  | read hf htodo _ =>
    obtain ⟨hjobs, hsub⟩ := h.jobs _ hf
    refine ⟨h.placed, fun f' hf' => ?_⟩
    obtain rfl := Option.some.inj hf'
    refine ⟨hjobs, fun x hx => hsub ?_⟩
    rw [htodo]
    rcases List.mem_append.mp hx with hx | hx
    · exact List.mem_append_left _ hx
    · exact List.mem_append_right _ (List.mem_cons_of_mem _ hx)
  | commit _ _ => exact ⟨h.placed, nofun⟩
  | _ => exact ⟨h.placed, h.jobs⟩

theorem confined_reachable (h : (overlap P g mode).Reachable s) : Confined P s := by
  induction h with
  | start h =>
    obtain ⟨cap, rfl⟩ := h
    exact ⟨nofun, nofun⟩
  | step hreach hs ih => exact confined_step ih (sourced_reachable hreach) hs.1

/-- Where a slice lies in its tensor. -/
theorem slice_fits (hP : Mapped P) {ti : TensorInfo} {x : UInt32}
    (hti : routedInfo P name = some ti) (hx : x.toNat < expertCount P) :
    x.toNat * ti.bytesPerExpert.toNat + ti.bytesPerExpert.toNat ≤ ti.bytesTotal.toNat := by
  have hle := Nat.mul_le_mul_right ti.bytesPerExpert.toNat (Nat.succ_le_of_lt hx)
  rw [Nat.succ_mul] at hle
  exact hle.trans (hP.room hti)

/-- Whatever the asks evict meanwhile, the worker reads only within the span of a routed tensor in
the file, to the same place in its window, and changes no byte outside that window. -/
theorem read_confined (hP : Mapped P) (h : (overlap P g mode).Reachable s) {m : Miss}
    (hs : (overlap P g mode).step s (.read m) s') :
    ∃ name ti, routedInfo P name = some ti ∧ ti.absOffset.toNat ≤ m.off ∧
      m.off + m.slice.bytes ≤ ti.absOffset.toNat + ti.bytesTotal.toNat ∧
      P.mmap name + (m.off - ti.absOffset.toNat) = m.slice.sliceAddr ∧
      ∀ a, a < P.mmap name ∨ P.mmap name + ti.bytesTotal.toNat ≤ a →
        s'.main.cache.mem a = s.main.cache.mem a := by
  have hconf := confined_reachable h
  obtain ⟨hs, -⟩ := hs
  cases hs with
  | read hf htodo hb =>
    obtain ⟨hjobs, hsub⟩ := hconf.jobs _ hf
    rw [htodo] at hsub
    obtain ⟨name, ti, x, hti, hx, rfl⟩ := hjobs m (hsub (by simp))
    have hfits := slice_fits hP hti hx
    refine ⟨name, ti, hti, Nat.le_add_right _ _, ?_, ?_, fun a ha => ?_⟩
    · simp only [windowMiss, windowSlice]
      omega
    · simp only [windowMiss, windowSlice]
      omega
    · rename_i bk
      have harrived := arrived_le bk (ti.absOffset.toNat + x.toNat * ti.bytesPerExpert.toNat)
        ti.bytesPerExpert.toNat
      simp only [Overlap.setCache, readJob, fill, windowMiss, windowSlice, PagedMemory.write]
      exact if_neg (by omega)

end Confinement

/-- Every ask is admitted. -/
def Admitted (P : Process) (s : Overlap) : OverlapEvent → Prop
  | .ask t visit => Admits P s.main (t, visit)
  | _ => True

/-- Runs in which every ask is admitted and nothing is evicted. -/
def calmOverlap (P : Process) (g : Gate) (mode : PfMode) : System Overlap OverlapEvent where
  start := (overlap P g mode).start
  step s e s' := (overlap P g mode).step s e s' ∧ Admitted P s e ∧
    s'.main.cache.stats.evictions = s.main.cache.stats.evictions

theorem reachable_of_calm (h : (calmOverlap P g mode).Reachable s) :
    (overlap P g mode).Reachable s := by
  induction h with
  | start h => exact .start h
  | step _ hs ih => exact ih.step hs.1

/-- What holds while nothing is evicted: a slice that a prefetch call has read is still there when
the call commits it, and the node of the last ask is served. -/
structure Serving (L : Layout) (P : Process) (s : Overlap) : Prop where
  consistent : Consistent L P s.main
  read : ∀ f, s.fetch = some f → f.ok = true → ∀ p, L.Uses p → keyOf p ∈ f.jobs.map Miss.k →
    keyOf p ∈ f.todo.map Miss.k ∨ L.Filled s.main.cache.mem p
  served : ∀ t, s.asked = some t →
    (∀ e ∈ readIdsStrided t.ids, e.toNat < expertCount P) ∧ Served P t s.main

section Serving

variable {hP : Mapped P} {hK : KeysDistinct P} {c : SliceCache} {m : Miss}

/-- What the fills of the worker read from. -/
def fillSource (P : Process) : Source := { P.src with backend := fillBackend P }

theorem direct_of_backend {bk : Backend} (h : fillBackend P = some bk) :
    P.cfg.useOdirect = true ∧ P.src.backend = some bk := by
  unfold fillBackend at h
  split at h
  · rename_i hd
    exact ⟨hd, h⟩
  · cases h

theorem job_of_isSlice (hb : P.cfg.useOdirect = true) (h : IsSlice P m) :
    (layout hP hK).Job (fillSource P) m := by
  obtain ⟨name, ti, x, hti, hx, rfl⟩ := h
  have hp : (layout hP hK).Uses (name, x) := layout_uses.mpr ⟨⟨ti, hti⟩, hx⟩
  have hbytes : (layout hP hK).bytes name = ti.bytesPerExpert.toNat := layout_bytes hti
  rw [← hbytes]
  refine job_windowMiss hp fun bk hbk i _ => ?_
  have hbk' : P.src.backend = some bk := (direct_of_backend hbk).2
  rw [layout_data hti, sourceByte_direct hb hbk', layout_bytes hti]

/-- A new cache in which what was filled still is. -/
theorem Consistent.setCache {L : Layout} (h : Consistent L P st) (hkept : L.Kept c)
    (hretains : L.Retains st.cache c) : Consistent L P { st with cache := c } :=
  ⟨hkept, h.windows, h.data, h.freshKept, fun hf q hq hsome =>
    hretains q hq (h.full hf q hq hsome)⟩

/-- A node is served as long as what could be read of its slices can be read. -/
theorem Served.setCache (h : Served P t st) (hc : Consistent (layout hP hK) P st)
    (hids : ∀ e ∈ readIdsStrided t.ids, e.toNat < expertCount P)
    (hreads : ∀ p, (layout hP hK).Uses p → (layout hP hK).Reads st.cache.mem p →
      (layout hP hK).Reads c.mem p) : Served P t { st with cache := c } := by
  intro win hwin hdata e he i hi
  obtain ⟨hti, hbase, _⟩ := hc.windows _ win hwin
  have hp : (layout hP hK).Uses (t.weight.name, e) := layout_uses.mpr ⟨⟨win.ti, hti⟩, hids e he⟩
  have haddr := (slice_room hti hp).1
  have hbefore : (layout hP hK).Reads st.cache.mem (t.weight.name, e) := by
    intro j hj
    rw [layout_bytes hti] at hj
    rw [haddr, layout_data hti, ← hbase]
    exact h win hwin hdata e he j hj
  have hafter := hreads _ hp hbefore i (by rwa [layout_bytes hti])
  rw [haddr, layout_data hti, ← hbase] at hafter
  exact hafter

/-- In direct mode the creation of a window leaves the cache alone. -/
theorem ensureWindow_direct (hd : P.cfg.useOdirect = true)
    (h : ensureWindow P st name = some st') : st'.cache = st.cache := by
  obtain rfl | ⟨ti, _, _, ⟨_, rfl⟩ | ⟨orig, _, horig, _⟩⟩ := ensureWindow_cases h
  · rfl
  · rfl
  · simp [newWindow, hd] at horig

/-- In direct mode an ask that evicts nothing leaves filled what was. -/
theorem Consistent.ask_retains (hd : P.cfg.useOdirect = true)
    (h : Consistent (layout hP hK) P st)
    (hids : ∀ e ∈ readIdsStrided t.ids, e.toNat < expertCount P)
    (ha : Stream.ask P st visit t = some st')
    (hev : st'.cache.stats.evictions = st.cache.stats.evictions) :
    (layout hP hK).Retains st.cache st'.cache := by
  have hfound : ∀ w, discover P st t.srcs none none = (some w, some t.ids) →
      (layout hP hK).Retains st.cache st'.cache := by
    intro w hdisc
    rcases ask_cases hdisc ha with ⟨_, rfl⟩ | ⟨st₁, hensure, hwindow⟩
    · exact fun _ _ hq => hq
    · have hcache := ensureWindow_direct hd hensure
      have h₁ := (h.ensureWindow hensure).1
      rcases hwindow with ⟨_, rfl⟩ | ⟨win, hwin, hask⟩
      · rw [hcache]
        exact fun _ _ hq => hq
      · rw [← hcache] at hev ⊢
        exact (h₁.askWindow hwin hids hask hev).2.1
  rcases discover_cases P st t with hdisc | ⟨_, hdisc | ⟨hdisc, _⟩⟩
  · exact hfound _ hdisc
  · simp only [Stream.ask, hdisc] at ha
    obtain rfl := Option.some.inj ha
    exact fun _ _ hq => hq
  · exact hfound _ hdisc

theorem Serving.ask (h : Serving (layout hP hK) P s) (hb : Backed P s)
    (hids : ∀ e ∈ readIdsStrided t.ids, e.toNat < expertCount P)
    (ha : Stream.ask P s.main visit t = some st) (hadm : Admits P s.main (t, visit))
    (hev : st.cache.stats.evictions = s.main.cache.stats.evictions) :
    Serving (layout hP hK) P (s.ask P mode t st) := by
  obtain ⟨hcons, hserved⟩ := h.consistent.ask hids ha hev
  refine ⟨?_, ?_, ?_⟩
  · rw [ask_main]
    exact hcons
  · intro f hf hok p hp hk
    rw [ask_fetch] at hf
    rw [ask_main]
    obtain ⟨bk, hbk⟩ := hb (by simp [hf])
    have hretains := h.consistent.ask_retains (direct_of_backend hbk).1 hids ha hev
    exact (h.read f hf hok p hp hk).imp_right fun hfilled => hretains p hp hfilled
  · intro t' ht'
    rw [ask_asked] at ht'
    obtain rfl := Option.some.inj ht'
    rw [ask_main]
    exact ⟨hids, hserved hadm⟩

/-- A read of the worker fills its slice, or fails and spoils the call. -/
theorem Serving.read_step (h : Serving (layout hP hK) P s) {f : Prefetch} {bk : Backend}
    {before after : List Miss} (hconf : Confined P s) (hf : s.fetch = some f)
    (htodo : f.todo = before ++ m :: after) (hbk : fillBackend P = some bk) :
    Serving (layout hP hK) P
      { s.setCache (readJob s.main.cache bk m) with
        fetch := some ⟨f.jobs, before ++ after, f.ok && bk.read m.off m.slice.bytes⟩ } := by
  obtain ⟨hjobs, hsub⟩ := hconf.jobs f hf
  rw [htodo] at hsub
  have hjob : (layout hP hK).Job (fillSource P) m :=
    job_of_isSlice (direct_of_backend hbk).1 (hjobs m (hsub (by simp)))
  have hpatches := readJob_patches (c := s.main.cache) hjob hbk
  obtain ⟨hkept, hretains⟩ := h.consistent.kept.patches hpatches
  refine ⟨h.consistent.setCache hkept hretains, ?_, ?_⟩
  · rintro f' hf' hok p hp hk
    obtain rfl := Option.some.inj hf'
    obtain ⟨hok', hread⟩ := Bool.and_eq_true_iff.mp hok
    rcases h.read f hf hok' p hp hk with hleft | hfilled
    · rw [htodo, List.map_append, List.map_cons, List.mem_append, List.mem_cons] at hleft
      rcases hleft with hleft | hthis | hleft
      · exact Or.inl (by simp only [List.map_append, List.mem_append, hleft, true_or])
      · exact Or.inr (hpatches.filled p hp ⟨hread, hthis⟩)
      · exact Or.inl (by simp only [List.map_append, List.mem_append, hleft, or_true])
    · exact Or.inr (hretains p hp hfilled)
  · intro t ht
    obtain ⟨hids, hserved⟩ := h.served t ht
    exact ⟨hids, hserved.setCache h.consistent hids fun p hp => (hpatches.keeps p hp).reads⟩

/-- A commit that evicts nothing makes filled slices resident. -/
theorem Serving.commit_step (h : Serving (layout hP hK) P s) {f : Prefetch}
    (hf : s.fetch = some f) (htodo : f.todo = [])
    (hev : (if f.ok then commitJobs f.jobs s.main.cache else s.main.cache).stats.evictions =
      s.main.cache.stats.evictions) :
    Serving (layout hP hK) P
      (s.setCache (if f.ok then commitJobs f.jobs s.main.cache else s.main.cache)).release := by
  have hboth : (layout hP hK).Kept (if f.ok then commitJobs f.jobs s.main.cache else s.main.cache) ∧
      (if f.ok then commitJobs f.jobs s.main.cache else s.main.cache).mem = s.main.cache.mem := by
    cases hok : f.ok with
    | false => exact ⟨h.consistent.kept, rfl⟩
    | true =>
      rw [hok, if_pos rfl] at hev
      rw [if_pos rfl]
      refine commitJobs_kept h.consistent.kept (fun p hp hk => ?_) hev
      rcases h.read f hf hok p hp hk with hleft | hfilled
      · rw [htodo] at hleft
        cases hleft
      · exact hfilled
  obtain ⟨hkept, hmem⟩ := hboth
  refine ⟨h.consistent.setCache hkept fun p _ hq => hmem ▸ hq, nofun, fun t ht => ?_⟩
  obtain ⟨hids, hserved⟩ := h.served t ht
  exact ⟨hids, hserved.setCache h.consistent hids fun p _ hr => hmem ▸ hr⟩

theorem serving_step (h : Serving (layout hP hK) P s) (hconf : Confined P s) (hb : Backed P s)
    (hs : (calmOverlap P g mode).step s e s') : Serving (layout hP hK) P s' := by
  obtain ⟨⟨hs, hids⟩, hadm, hev⟩ := hs
  cases hs with
  | route _ hnamed hrun =>
    obtain ⟨l, hname⟩ := hnamed
    rw [callback, router_of_named hname] at hrun
    obtain rfl := Option.some.inj hrun
    exact ⟨h.consistent, h.read, h.served⟩
  | ask _ ha =>
    rw [ask_main] at hev
    exact h.ask hb hids ha hadm hev
  | skip _ _ _ => exact ⟨h.consistent, nofun, h.served⟩
  | filter _ _ hf =>
    refine ⟨h.consistent, fun f' hf' _ p _ hk => ?_, h.served⟩
    obtain rfl := Option.some.inj hf'
    obtain rfl := started_eq_some hf
    exact Or.inl hk
  | read hf htodo hbk => exact h.read_step hconf hf htodo hbk
  | commit hf htodo => exact h.commit_step hf htodo hev
  | _ => exact ⟨h.consistent, h.read, h.served⟩

end Serving

theorem serving_reachable (hP : Mapped P) (hK : KeysDistinct P)
    (h : (calmOverlap P g mode).Reachable s) : Serving (layout hP hK) P s := by
  induction h with
  | start hs =>
    obtain ⟨cap, rfl⟩ := hs
    exact ⟨consistent_start ⟨cap, rfl⟩, nofun, nofun⟩
  | step hs hstep ih =>
    have hreach := reachable_of_calm hs
    exact serving_step ih (confined_reachable hreach) (backed_reachable hreach) hstep

/-- However the worker's reads and commits fall between the callbacks, the node of the last ask stays
served until the next one, if every ask is admitted and nothing is evicted. -/
theorem overlap_serves (hP : Mapped P) (hK : KeysDistinct P)
    (h : (calmOverlap P g mode).Reachable s) (ht : s.asked = some t) : Served P t s.main :=
  ((serving_reachable hP hK h).served t ht).2

section Example

/-- The file with two experts in direct mode. -/
def directTwo : Process :=
  { twoProcess with
    cfg := { useOdirect := true }
    src := { mapping := fun _ => 1, backend := some onesBackend } }

theorem mapped_directTwo : Mapped directTwo :=
  ⟨mapped_two.manifest, mapped_two.aligned, mapped_two.apart, mapped_two.mirrors⟩

theorem keysDistinct_directTwo : KeysDistinct directTwo := keysDistinct_two

/-- The cap is smaller than a slice, so that nothing becomes resident. -/
def directStart : Overlap where
  main := { cache := fresh 16, data := directTwo.mirror }

/-- The first expert is asked for. -/
def directAsked : Overlap :=
  directStart.ask directTwo .full (routedTo 0 1)
    ((ask directTwo directStart.main Visit.once (routedTo 0 1)).getD directStart.main)

def directKicked : Overlap :=
  { directAsked with ops := [.refill [(gateExps, [0])]], kicked := directAsked.calls }

def directQueued : Overlap :=
  { directKicked with ops := [], queue := directKicked.queue.refill [(gateExps, [0])] }

def directNotified : Overlap := { directQueued with queue := directQueued.queue.notify }

def directTaken : Overlap := { directNotified with queue := directNotified.queue.check }

def firstJob : Miss := windowMiss gateExps 4096 320 32 0

def directFetching : Overlap := { directTaken with fetch := some ⟨[firstJob], [firstJob], true⟩ }

/-- The worker has read the slice a second time. -/
def directRead : Overlap :=
  { directFetching.setCache (readJob directFetching.main.cache onesBackend firstJob) with
    fetch := some ⟨[firstJob], [], true⟩ }

theorem reachable_fetching : (calmOverlap directTwo {} .full).Reachable directFetching := by
  have hstart : (calmOverlap directTwo {} .full).Reachable directStart := .start ⟨16, rfl⟩
  have hask : (calmOverlap directTwo {} .full).step directStart (.ask (routedTo 0 1) Visit.once)
      directAsked := by
    refine ⟨⟨.ask ⟨rfl, rfl⟩ rfl, ?_⟩, Or.inr (Or.inl (by decide)), rfl⟩
    intro e he
    rw [ids_routedTo he]
    decide
  have hkick : (calmOverlap directTwo {} .full).step directAsked (.kick [(gateExps, [0])])
      directKicked := ⟨⟨.kick ⟨rfl, rfl⟩ rfl (.refl _), trivial⟩, trivial, rfl⟩
  have hops : directKicked.ops = [.refill [(gateExps, [0])]] := rfl
  have hqueue : (calmOverlap directTwo {} .full).step directKicked .queueOp directQueued :=
    ⟨⟨.queueOp hops rfl, trivial⟩, trivial, rfl⟩
  have howed : 0 < directQueued.queue.owed := by decide
  have hnotify : (calmOverlap directTwo {} .full).step directQueued .notify directNotified :=
    ⟨⟨.notify howed, trivial⟩, trivial, rfl⟩
  have hcheck : (calmOverlap directTwo {} .full).step directNotified .check directTaken :=
    ⟨⟨.check (by decide) rfl, trivial⟩, trivial, rfl⟩
  have hheld : directTaken.queue.consumer = .holding (gateExps, [0]) := rfl
  have hfilter : (calmOverlap directTwo {} .full).step directTaken (.filter Visit.once)
      directFetching := ⟨⟨.filter hheld rfl rfl, trivial⟩, trivial, rfl⟩
  exact (((((hstart.step hask).step hkick).step hqueue).step hnotify).step hcheck).step hfilter

theorem step_directRead :
    (calmOverlap directTwo {} .full).step directFetching (.read firstJob) directRead := by
  have hfetch : directFetching.fetch = some ⟨[firstJob], [firstJob], true⟩ := rfl
  have htodo : [firstJob] = [] ++ firstJob :: [] := rfl
  have hbackend : fillBackend directTwo = some onesBackend := rfl
  exact ⟨⟨.read hfetch htodo hbackend, trivial⟩, trivial, rfl⟩

theorem read_confined_first :
    ∃ name ti, routedInfo directTwo name = some ti ∧ ti.absOffset.toNat ≤ firstJob.off ∧
      firstJob.off + firstJob.slice.bytes ≤ ti.absOffset.toNat + ti.bytesTotal.toNat ∧
      directTwo.mmap name + (firstJob.off - ti.absOffset.toNat) = firstJob.slice.sliceAddr ∧
      ∀ a, a < directTwo.mmap name ∨ directTwo.mmap name + ti.bytesTotal.toNat ≤ a →
        directRead.main.cache.mem a = directFetching.main.cache.mem a :=
  read_confined mapped_directTwo (reachable_of_calm reachable_fetching) step_directRead.1

/-- After the second read the node is still served. -/
theorem overlap_serves_first : directRead.main.data gateExps = some 4096 ∧
    Served directTwo (routedTo 0 1) directRead.main := by
  refine ⟨rfl, ?_⟩
  exact overlap_serves mapped_directTwo keysDistinct_directTwo
    (reachable_fetching.step step_directRead) rfl

end Example

end NotreEngine.Stream
