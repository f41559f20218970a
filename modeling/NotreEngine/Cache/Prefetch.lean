import NotreEngine.Cache.Soundness

/-!
# Racing prefetches

Prefetch calls on any number of threads against demand calls. A prefetch filters under the lock,
reads one slice at a time outside it and commits under it again; every demand call is one step.
-/
namespace NotreEngine.Cache

open Recency Transition PagedMemory Layout

/-- A `prefetch_batch_at` call between its filter and its commit. -/
structure Prefetch where
  jobs : List Miss
  todo : List Miss
  ok : Bool

structure Racing where
  cache : SliceCache
  threads : Nat → Option Prefetch

inductive RaceAction where
  | demand (call : Call)
  | filter (i : Nat) (tensor : Str) (b : Batch) (destWindowBase srcBaseOffset bytes : Nat)
  | read (i : Nat) (m : Miss)
  | commit (i : Nat)

def Demand : Call → Prop
  | .prefetchBatchAt .. => False
  | _ => True

/-- A call that finds nothing absent returns at once. -/
def started (jobs : List Miss) : Option Prefetch :=
  if jobs.isEmpty then none else some ⟨jobs, jobs, true⟩

def Racing.setThread (s : Racing) (i : Nat) (o : Option Prefetch) : Racing :=
  { s with threads := Function.update s.threads i o }

variable {src : Source} {L : Layout} {cap : Nat} {s s' : Racing} {a : RaceAction}

@[simp] theorem setThread_cache {i : Nat} {o : Option Prefetch} :
    (s.setThread i o).cache = s.cache := rfl

@[simp] theorem setThread_self {i : Nat} {o : Option Prefetch} :
    (s.setThread i o).threads i = o := Function.update_self ..

@[simp] theorem setThread_of_ne {i j : Nat} {o : Option Prefetch} (h : j ≠ i) :
    (s.setThread i o).threads j = s.threads j := Function.update_of_ne h ..

inductive RaceStep (L : Layout) (src : Source) : Racing → RaceAction → Racing → Prop
  | demand {s call c'} : Demand call → L.Follows src call → call.run src s.cache = some c' →
      RaceStep L src s (.demand call) { s with cache := c' }
  | filter {s i t b base off bytes bk} : s.threads i = none → src.backend = some bk →
      L.Follows src (.prefetchBatchAt t b base off bytes) →
      RaceStep L src s (.filter i t b base off bytes)
        (s.setThread i (started (absentJobs s.cache t b base off bytes)))
  -- lanes take the jobs in any order
  | read {s i f m before after bk} : s.threads i = some f → f.todo = before ++ m :: after →
      src.backend = some bk →
      RaceStep L src s (.read i m)
        ({ s with cache := readJob s.cache bk m }.setThread i
          (some ⟨f.jobs, before ++ after, f.ok && bk.read m.off m.slice.bytes⟩))
  -- when a read failed, nothing is committed
  | commit {s i f} : s.threads i = some f → f.todo = [] →
      RaceStep L src s (.commit i)
        ({ s with cache := if f.ok then commitJobs f.jobs s.cache else s.cache }.setThread i none)

def idle (cap : Nat) : Racing := ⟨fresh cap, fun _ => none⟩

def Layout.raceSystem (L : Layout) (src : Source) (cap : Nat) : System Racing RaceAction where
  start s := s = idle cap
  step := RaceStep L src

/-- Every slice a commit is about to make resident has survived since it was read. -/
def CommitsSurvivors (L : Layout) (s : Racing) : RaceAction → Prop
  | .commit i => ∀ f, s.threads i = some f → f.ok → L.CommitsAll L.Survives f.jobs s.cache
  | _ => True

/-- The cache is sound and the jobs of every prefetch in flight name slices in use. -/
def RaceSound (L : Layout) (src : Source) (s : Racing) : Prop :=
  L.Sound L.Reads s.cache ∧ ∀ i f, s.threads i = some f →
    (∀ m ∈ f.jobs, L.Job src m) ∧ f.todo ⊆ f.jobs

theorem raceSound_idle : RaceSound L src (idle cap) := by
  refine ⟨sound_fresh cap, ?_⟩
  intro i f hf
  cases hf

theorem commitsAll_reads {c : SliceCache} {ms : List Miss} (hL : L.PageMultiple)
    (h : L.Sound L.Reads c) (hms : ∀ m ∈ ms, L.Job src m) (hg : L.CommitsAll L.Survives ms c) :
    L.CommitsAll L.Reads ms c := by
  induction ms generalizing c with
  | nil => trivial
  | cons m ms ih =>
    have hone : L.Commits L.Reads c m :=
      fun hk hb p hp hmk => (h.authentic p hp).reads (hg.1 hk hb p hp hmk)
    have hnext := commitJob_sound stable_reads hL h (hms m (by simp)) hone
    exact ⟨hone, ih hnext (fun x hx => hms x (by simp [hx])) hg.2⟩

/-- Replacing one thread's call keeps what holds of every call in flight. -/
theorem threads_setThread {P : Prefetch → Prop} {i : Nat} {o : Option Prefetch}
    (h : ∀ j f, s.threads j = some f → P f) (ho : ∀ f, o = some f → P f) :
    ∀ j f, (s.setThread i o).threads j = some f → P f := by
  intro j f hf
  by_cases hj : j = i
  · subst j
    rw [setThread_self] at hf
    exact ho f hf
  · rw [setThread_of_ne hj] at hf
    exact h j f hf

theorem raceSound_step (hL : L.PageMultiple) (h : RaceSound L src s)
    (hs : RaceStep L src s a s') (hg : CommitsSurvivors L s a) : RaceSound L src s' := by
  obtain ⟨hsound, hthreads⟩ := h
  cases hs with
  | demand _ hf hr => exact ⟨run_sound stable_reads hL hsound hf hr, hthreads⟩
  | filter _ _ hf =>
    obtain ⟨rfl, rfl, hes⟩ := hf
    refine ⟨hsound, threads_setThread hthreads ?_⟩
    intro f hstart
    unfold started at hstart
    split at hstart
    · cases hstart
    · cases hstart
      exact ⟨(absentJobs_spec hsound.wf hes).1, List.Subset.refl _⟩
  | read hi htodo hb =>
    obtain ⟨hjobs, hsub⟩ := hthreads _ _ hi
    rw [htodo] at hsub
    have hm := hjobs _ (hsub (List.mem_append_right _ List.mem_cons_self))
    refine ⟨hsound.patches stable_reads (readJob_patches hm hb), threads_setThread hthreads ?_⟩
    rintro f hf
    cases hf
    refine ⟨hjobs, fun x hx => hsub ?_⟩
    rcases List.mem_append.mp hx with hx | hx
    · exact List.mem_append_left _ hx
    · exact List.mem_append_right _ (List.mem_cons_of_mem _ hx)
  | commit hi =>
    refine ⟨?_, threads_setThread hthreads fun f hf => by cases hf⟩
    have hjobs := (hthreads _ _ hi).1
    rw [setThread_cache]
    split
    · rename_i hok
      exact commitJobs_sound stable_reads hL hsound hjobs
        (commitsAll_reads hL hsound hjobs (hg _ hi hok))
    · exact hsound

/-- Every interleaving keeps the resident slices equal to their source as long as each prefetch
commits only slices that have survived since they were read. -/
theorem race_reads_of_commitsSurvivors (L : Layout) (src : Source) (cap : Nat)
    (tr : List (RaceAction × Racing)) (hL : L.PageMultiple)
    (ht : (L.raceSystem src cap).Trace (idle cap) tr)
    (hg : Guarded (CommitsSurvivors L) (idle cap) tr) :
    ∀ x ∈ tr, ∀ p, L.Uses p → Resident x.2.cache.toIndex p → L.Reads x.2.cache.mem p := by
  intro x hx
  have hall := ht.forall_of_guarded (P := RaceSound L src)
    (fun s a s' h hs hg => raceSound_step hL h hs hg) raceSound_idle hg
  exact (hall x hx).1.intact

def soloBatch (e : UInt32) : Batch := ⟨[e], [e], by simp, by simp⟩

/-- The demand for one slice of one page. -/
def soloDemand (e : UInt32) : Call := .touchBatchAt [65] (soloBatch e) 0 0 kPage

def soloJob : Miss := windowMiss [65] 0 0 kPage 0

def soloRead (cap : Nat) : SliceCache :=
  readJob (fresh cap) onesBackend soloJob

/-- A prefetch of the first slice that has read it and is about to commit. -/
def soloReady (cap : Nat) : Racing :=
  ({ (idle cap).setThread 0 (some ⟨[soloJob], [soloJob], true⟩) with
    cache := soloRead cap }).setThread 0 (some ⟨[soloJob], [], true⟩)

theorem soloReady_threads (cap : Nat) :
    (soloReady cap).threads 0 = some ⟨[soloJob], [], true⟩ := setThread_self

theorem soloReady_trace {cap : Nat} {tr : List (RaceAction × Racing)}
    (ht : ((onesLayout 2 kPage).raceSystem onesSource cap).Trace (soloReady cap) tr) :
    ((onesLayout 2 kPage).raceSystem onesSource cap).Trace (idle cap)
      ((.filter 0 [65] (soloBatch 0) 0 0 kPage,
          (idle cap).setThread 0 (some ⟨[soloJob], [soloJob], true⟩)) ::
        (.read 0 soloJob, soloReady cap) :: tr) := by
  have hfilter : RaceStep (onesLayout 2 kPage) onesSource (idle cap)
      (.filter 0 [65] (soloBatch 0) 0 0 kPage)
      ((idle cap).setThread 0 (some ⟨[soloJob], [soloJob], true⟩)) :=
    .filter rfl rfl (onesLayout_follows (by decide)).2.2
  have htodo : [soloJob] = [] ++ soloJob :: [] := rfl
  have hthread : ((idle cap).setThread 0 (some ⟨[soloJob], [soloJob], true⟩)).threads 0 =
      some ⟨[soloJob], [soloJob], true⟩ := setThread_self
  have hbackend : onesSource.backend = some onesBackend := rfl
  have hread := RaceStep.read (L := onesLayout 2 kPage) hthread htodo hbackend
  exact .cons hfilter (.cons hread ht)

/-- A prefetch nothing interferes with. -/
theorem race_reads_of_commitsSurvivors_solo :
    ∃ tr, ((onesLayout 2 kPage).raceSystem onesSource 8192).Trace (idle 8192) tr ∧
      (∃ x ∈ tr, Resident x.2.cache.toIndex ([65], 0)) ∧
      ∀ x ∈ tr, ∀ p, (onesLayout 2 kPage).Uses p → Resident x.2.cache.toIndex p →
        (onesLayout 2 kPage).Reads x.2.cache.mem p := by
  have hcommit : RaceStep (onesLayout 2 kPage) onesSource (soloReady 8192) (.commit 0) _ :=
    .commit (soloReady_threads 8192) rfl
  have ht := soloReady_trace (.cons hcommit (.nil _))
  refine ⟨_, ht, ⟨_, List.mem_cons_of_mem _ (List.mem_cons_of_mem _ List.mem_cons_self), ?_⟩,
    race_reads_of_commitsSurvivors _ _ _ _ onesLayout_pageMultiple ht
      ⟨trivial, trivial, ?_, trivial⟩⟩
  · have hin : keyOf ([65], 0) ∈ keys (commitJobs [soloJob] (soloRead 8192)).recency := by decide
    exact hin
  · rintro f hf _
    cases (soloReady_threads 8192).symm.trans hf
    refine ⟨?_, trivial⟩
    intro _ _ p hp hk i hi hnone
    obtain rfl : p = ([65], 0) :=
      (onesLayout 2 kPage).key_injective p ([65], 0) hp (onesLayout_uses (by decide)) hk.symm
    have hfilled : (onesLayout 2 kPage).Filled (soloRead 8192).mem ([65], 0) :=
      Layout.filled_write (L := onesLayout 2 kPage) (p := ([65], 0))
    cases hnone.symm.trans (hfilled i hi)

/-- Between the read and the commit of a prefetch the slice is demanded and evicted again. -/
theorem not_race_reads :
    ¬ ∀ (L : Layout) (src : Source) (cap : Nat) (tr : List (RaceAction × Racing)),
      L.PageMultiple → (L.raceSystem src cap).Trace (idle cap) tr →
      ∀ x ∈ tr, ∀ p, L.Uses p → Resident x.2.cache.toIndex p → L.Reads x.2.cache.mem p := by
  intro h
  have hrun : (((soloDemand 0).run onesSource (soloRead 4096)).bind fun c =>
      ((soloDemand 1).run onesSource c).map fun c =>
        ((commitJobs [soloJob] c).mem.read 0,
          decide (keyOf ([65], 0) ∈ keys (commitJobs [soloJob] c).recency))) = some (0, true) := by
    decide
  obtain ⟨c₁, h₁, hrun⟩ := Option.bind_eq_some_iff.mp hrun
  obtain ⟨c₂, h₂, heq⟩ := Option.map_eq_some_iff.mp hrun
  obtain ⟨hzero, hres⟩ := Prod.mk.inj heq
  have hfirst : RaceStep (onesLayout 2 kPage) onesSource (soloReady 4096)
      (.demand (soloDemand 0)) ⟨c₁, (soloReady 4096).threads⟩ :=
    .demand trivial (onesLayout_follows (by decide)).2.1 h₁
  have hsecond : RaceStep (onesLayout 2 kPage) onesSource ⟨c₁, (soloReady 4096).threads⟩
      (.demand (soloDemand 1)) ⟨c₂, (soloReady 4096).threads⟩ :=
    .demand trivial (onesLayout_follows (by decide)).2.1 h₂
  have hthread : (⟨c₂, (soloReady 4096).threads⟩ : Racing).threads 0 =
      some ⟨[soloJob], [], true⟩ := soloReady_threads 4096
  have hcommit : RaceStep (onesLayout 2 kPage) onesSource _ (.commit 0) _ :=
    .commit hthread rfl
  have ht := soloReady_trace (.cons hfirst (.cons hsecond (.cons hcommit (.nil _))))
  have hin : keyOf ([65], 0) ∈ keys (commitJobs [soloJob] c₂).recency := of_decide_eq_true hres
  have hread := h _ _ _ _ onesLayout_pageMultiple ht _
    (List.mem_cons_of_mem _ (List.mem_cons_of_mem _ (List.mem_cons_of_mem _
      (List.mem_cons_of_mem _ List.mem_cons_self)))) ([65], 0) (onesLayout_uses (by decide)) hin
    0 (by decide)
  have hone : (commitJobs [soloJob] c₂).mem.read 0 = 1 := hread
  rw [hzero] at hone
  cases hone

end NotreEngine.Cache
