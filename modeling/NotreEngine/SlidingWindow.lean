import Mathlib.Tactic

/-!
# Sliding windows

A limiter that queues, for each user, the times at which calls were allowed, and refuses a call
while as many as the limit are less than or exactly a window old. Times are taken from an ordered
group, and some users may be exempt.
-/

namespace SlidingWindow

variable {ι τ : Type*}

structure Call (ι τ : Type*) where
  user : ι
  now : τ
  deriving DecidableEq

structure Answer (ι τ : Type*) extends Call ι τ where
  allowed : Bool
  deriving DecidableEq

/-- The answers to calls put one after the other. -/
def answers {σ : Type*} (allow : σ → ι → τ → Bool × σ) : σ → List (Call ι τ) → List (Answer ι τ)
  | _, [] => []
  | s, c :: cs => ⟨c, (allow s c.user c.now).1⟩ :: answers allow (allow s c.user c.now).2 cs

theorem answers_toCall {σ : Type*} (f : σ → ι → τ → Bool × σ) (s : σ) (calls : List (Call ι τ)) :
    (answers f s calls).map Answer.toCall = calls := by
  induction calls generalizing s with
  | nil => rfl
  | cons c cs ih => simp [answers, ih]

variable [DecidableEq ι]

/-- The times at which a user was allowed. -/
def granted (u : ι) (h : List (Answer ι τ)) : List τ :=
  (h.filter fun a => a.user = u && a.allowed).map fun a => a.now

variable {w now later : τ} {limit : Int} {q log : List τ} {u v : ι} {h pre : List (Answer ι τ)}
  {a : Answer ι τ} {exempt : ι → Bool} {hits hits' : ι → List τ} {calls : List (Call ι τ)}

theorem granted_append (u : ι) (h k : List (Answer ι τ)) :
    granted u (h ++ k) = granted u h ++ granted u k := by
  simp [granted]

theorem granted_of_ne (hne : a.user ≠ u) : granted u [a] = [] := by
  simp [granted, hne]

theorem granted_allowed (hu : a.user = u) (ha : a.allowed = true) : granted u [a] = [a.now] := by
  simp [granted, hu, ha]

theorem granted_refused (ha : a.allowed = false) : granted u [a] = [] := by
  simp [granted, ha]

theorem mem_granted {t : τ} (ht : t ∈ granted u h) : ∃ a ∈ h, a.now = t := by
  obtain ⟨a, ha, rfl⟩ := List.mem_map.mp ht
  exact ⟨a, (List.mem_filter.mp ha).1, rfl⟩

section Limiter

variable [AddCommGroup τ] [LinearOrder τ]

/-- What is left of a queue whose front entries are dropped once they are older than the window. -/
def expire (w now : τ) (q : List τ) : List τ := q.dropWhile fun t => w < now - t

/-- The times of a log that are not older than the window. -/
def live (w now : τ) (log : List τ) : List τ := log.filter fun t => now - t ≤ w

/-- One call: the answer, and the queue after it. -/
def accept (w : τ) (limit : Int) (now : τ) (q : List τ) : Bool × List τ :=
  let q := expire w now q
  if limit ≤ q.length then (false, q) else (true, q ++ [now])

def allow (exempt : ι → Bool) (w : τ) (limit : Int) (hits : ι → List τ) (u : ι) (now : τ) :
    Bool × (ι → List τ) :=
  if exempt u then (true, hits)
  else ((accept w limit now (hits u)).1, Function.update hits u (accept w limit now (hits u)).2)

/-- No two calls go back in time. -/
def InOrder (calls : List (Call ι τ)) : Prop := calls.Pairwise fun c d => c.now ≤ d.now

instance : Decidable (InOrder calls) := inferInstanceAs (Decidable (calls.Pairwise _))

section Queue

variable [IsOrderedAddMonoid τ]

/-- Expiring again, later, is expiring once. -/
theorem expire_expire (hle : now ≤ later) : expire w later (expire w now q) = expire w later q := by
  induction q with
  | nil => rfl
  | cons t q ih =>
    by_cases hold : w < now - t
    · have hlater : w < later - t := hold.trans_le (sub_le_sub_right hle t)
      simpa [expire, hold, hlater] using ih
    · simp [expire, hold]

/-- A queue that agrees with a log still does after both are extended by the present time. -/
theorem expire_concat (hq : expire w later q = live w later log) (hlog : ∀ t ∈ log, t ≤ now) :
    expire w later (q ++ [now]) = live w later (log ++ [now]) := by
  rw [live, List.filter_append, ← live, ← hq, expire, List.dropWhile_append]
  split
  · rename_i hempty
    have hnil : expire w later q = [] := by simpa [expire] using hempty
    rw [hnil]
    by_cases hold : w < later - now
    · simp only [List.nil_append, List.filter_cons, List.filter_nil, List.dropWhile_cons,
        List.dropWhile_nil, decide_eq_true_eq, hold, hold.not_ge, if_true, if_false]
    · simp only [List.nil_append, List.filter_cons, List.filter_nil, List.dropWhile_cons,
        decide_eq_true_eq, hold, not_lt.mp hold, if_true, if_false]
  · rename_i hsome
    -- an older time is still in the window, so the present one is
    obtain ⟨t, ht⟩ : ∃ t, t ∈ expire w later q := by
      apply List.exists_mem_of_ne_nil
      simpa [expire] using hsome
    rw [hq, live, List.mem_filter, decide_eq_true_eq] at ht
    have hin : later - now ≤ w := (sub_le_sub_left (hlog t ht.1) later).trans ht.2
    simp only [expire, List.filter_cons, List.filter_nil, decide_eq_true_eq, hin, if_true]

end Queue

/-- The queues hold of each user's log what any later call can still see. -/
def Tracks (exempt : ι → Bool) (w : τ) (h : List (Answer ι τ)) (hits : ι → List τ) : Prop :=
  ∀ u now, exempt u = false → (∀ a ∈ h, a.now ≤ now) →
    expire w now (hits u) = live w now (granted u h)

/-- A call is allowed exactly when fewer than the limit of the user's earlier calls were allowed in
the window that ends with it; an exempt user's always is. -/
def Exact (exempt : ι → Bool) (w : τ) (limit : Int) (h : List (Answer ι τ)) : Prop :=
  ∀ pre a post, h = pre ++ a :: post →
    (a.allowed = true ↔ exempt a.user = true ∨ (live w a.now (granted a.user pre)).length < limit)

theorem tracks_nil : Tracks exempt w ([] : List (Answer ι τ)) fun _ => [] := by
  intro u now _ _
  rfl

theorem exact_nil : Exact exempt w limit ([] : List (Answer ι τ)) := by
  intro pre a post hsplit
  simp at hsplit

theorem Exact.left {k : List (Answer ι τ)} (hx : Exact exempt w limit (h ++ k)) :
    Exact exempt w limit h := by
  intro pre a post hsplit
  apply hx pre a (post ++ k)
  simp [hsplit]

theorem Exact.concat (hx : Exact exempt w limit h)
    (ha : a.allowed = true ↔
      exempt a.user = true ∨ (live w a.now (granted a.user h)).length < limit) :
    Exact exempt w limit (h ++ [a]) := by
  intro pre b post hsplit
  rcases List.append_eq_append_iff.mp hsplit with ⟨m, rfl, hm⟩ | ⟨m, rfl, hm⟩
  · cases m with
    | nil =>
      obtain ⟨rfl, -⟩ := List.cons.inj hm
      simpa using ha
    | cons c m => simp at hm
  · cases m with
    | nil =>
      obtain ⟨rfl, -⟩ := List.cons.inj hm
      simpa using ha
    | cons c m =>
      obtain ⟨rfl, -⟩ := List.cons.inj hm
      exact hx pre b m rfl

section Runs

variable [IsOrderedAddMonoid τ]

/-- What one call does to a limiter that tracks its history. -/
theorem Tracks.allow (ht : Tracks exempt w h hits) (hlast : ∀ a ∈ h, a.now ≤ now) {b : Bool}
    {next : ι → List τ} (hcall : allow exempt w limit hits u now = (b, next)) :
    (b = true ↔ exempt u = true ∨ (live w now (granted u h)).length < limit) ∧
      Tracks exempt w (h ++ [⟨⟨u, now⟩, b⟩]) next := by
  cases hu : exempt u with
  | true =>
    simp only [SlidingWindow.allow, hu, if_true] at hcall
    obtain ⟨rfl, rfl⟩ := Prod.mk.inj hcall
    refine ⟨by simp, ?_⟩
    intro v later hv hlater
    have hne : u ≠ v := by
      rintro rfl
      simp [hu] at hv
    rw [granted_append, granted_of_ne hne, List.append_nil]
    exact ht v later hv fun a ha => hlater a (List.mem_append_left _ ha)
  | false =>
    have hlive := ht u now hu hlast
    have hlog : ∀ t ∈ granted u h, t ≤ now := by
      intro t hmem
      obtain ⟨a, ha, rfl⟩ := mem_granted hmem
      exact hlast a ha
    simp only [SlidingWindow.allow, hu, accept, hlive, Bool.false_eq_true, if_false] at hcall
    split at hcall
    case isTrue hfull =>
      obtain ⟨rfl, rfl⟩ := Prod.mk.inj hcall
      refine ⟨by simpa using hfull, ?_⟩
      intro v later hexempt hlater
      rw [granted_append, granted_refused rfl, List.append_nil]
      have hle : now ≤ later := hlater ⟨⟨u, now⟩, false⟩ (by simp)
      have hall : ∀ a ∈ h, a.now ≤ later := fun a ha => (hlast a ha).trans hle
      by_cases hv : v = u
      · subst hv
        rw [Function.update_self, ← hlive, expire_expire hle]
        exact ht v later hexempt hall
      · rw [Function.update_of_ne hv]
        exact ht v later hexempt hall
    case isFalse hroom =>
      obtain ⟨rfl, rfl⟩ := Prod.mk.inj hcall
      refine ⟨by simpa using hroom, ?_⟩
      intro v later hexempt hlater
      have hle : now ≤ later := hlater ⟨⟨u, now⟩, true⟩ (by simp)
      have hall : ∀ a ∈ h, a.now ≤ later := fun a ha => (hlast a ha).trans hle
      simp only
      rw [granted_append]
      by_cases hv : v = u
      · subst hv
        rw [granted_allowed (a := ⟨⟨v, now⟩, true⟩) rfl rfl, Function.update_self, ← hlive]
        apply expire_concat _ hlog
        rw [expire_expire hle]
        exact ht v later hexempt hall
      · rw [granted_of_ne (Ne.symm hv), List.append_nil, Function.update_of_ne hv]
        exact ht v later hexempt hall

/-- Every call of a run in order of time is answered by the log of the calls before it. -/
theorem Exact.answers (ht : Tracks exempt w h hits) (hx : Exact exempt w limit h)
    (horder : InOrder calls) (hlast : ∀ a ∈ h, ∀ c ∈ calls, a.now ≤ c.now) :
    Exact exempt w limit (h ++ answers (allow exempt w limit) hits calls) := by
  induction calls generalizing h hits with
  | nil => simpa [SlidingWindow.answers] using hx
  | cons c cs ih =>
    obtain ⟨hfirst, hrest⟩ := List.pairwise_cons.mp horder
    have hnow : ∀ a ∈ h, a.now ≤ c.now := fun a ha => hlast a ha c (by simp)
    obtain ⟨hanswer, htracks⟩ :=
      ht.allow hnow (rfl : allow exempt w limit hits c.user c.now = _)
    rw [SlidingWindow.answers, List.append_cons]
    apply ih htracks (hx.concat hanswer) hrest
    intro a ha d hd
    rcases List.mem_append.mp ha with ha | ha
    · exact hlast a ha d (List.mem_cons_of_mem _ hd)
    · obtain rfl := List.mem_singleton.mp ha
      exact hfirst d hd

theorem exact_answers (horder : InOrder calls) :
    Exact exempt w limit (SlidingWindow.answers (allow exempt w limit) (fun _ => []) calls) :=
  Exact.answers tracks_nil exact_nil horder (by simp)

end Runs

/-- What a limiter promises of a user: no more than the limit in any closed window, and no refusal
unless the window that ends with the call is full. -/
structure Limited (w : τ) (limit : Int) (h : List (Answer ι τ)) (u : ι) : Prop where
  bounded : ∀ t, ((granted u h).countP fun s => t ≤ s ∧ s ≤ t + w : Nat) ≤ limit
  refused : ∀ pre post t, h = pre ++ ⟨⟨u, t⟩, false⟩ :: post →
    ((granted u pre).countP fun s => t - w ≤ s ∧ s ≤ t : Nat) = limit

section Bounds

variable [IsOrderedAddMonoid τ]

theorem length_live : (live w now log).length = log.countP fun t => now - w ≤ t := by
  rw [live, List.countP_eq_length_filter]
  congr 1
  apply List.filter_congr
  intro t _
  rw [decide_eq_decide]
  exact sub_le_comm

theorem Exact.bounded (hx : Exact exempt w limit h) (hlimit : 0 ≤ limit)
    (hu : exempt u = false) (t : τ) :
    ((granted u h).countP fun s => t ≤ s ∧ s ≤ t + w : Nat) ≤ limit := by
  induction h using List.reverseRecOn with
  | nil => simpa [granted] using hlimit
  | append_singleton h a ih =>
    have hbound := ih hx.left
    rw [granted_append, List.countP_append]
    by_cases ha : a.user = u ∧ a.allowed = true
    · obtain ⟨rfl, hallowed⟩ := ha
      rw [granted_allowed rfl hallowed, List.countP_singleton]
      split
      case isTrue hin =>
        -- what the window holds besides the new call is still live at that call
        simp only [Bool.decide_and, Bool.and_eq_true, decide_eq_true_eq] at hin
        have hroom := (hx h a [] rfl).mp hallowed
        simp only [hu, Bool.false_eq_true, false_or] at hroom
        rw [length_live] at hroom
        have hle : (granted a.user h).countP (fun s => t ≤ s ∧ s ≤ t + w) ≤
            (granted a.user h).countP fun s => a.now - w ≤ s := by
          apply List.countP_mono_left
          intro s _ hs
          simp only [Bool.decide_and, Bool.and_eq_true, decide_eq_true_eq] at hs ⊢
          exact (sub_le_iff_le_add.mpr hin.2).trans hs.1
        push_cast
        omega
      case isFalse => simpa using hbound
    · have hnone : granted u [a] = [] := by
        by_cases hau : a.user = u
        · exact granted_refused (by simpa [hau] using ha)
        · exact granted_of_ne hau
      simpa [hnone] using hbound

theorem Exact.limited (hx : Exact exempt w limit h) (hlimit : 0 ≤ limit)
    (horder : InOrder (h.map Answer.toCall)) (hu : exempt u = false) : Limited w limit h u := by
  refine ⟨hx.bounded hlimit hu, ?_⟩
  intro pre post t hsplit
  have hpre : Exact exempt w limit pre := by
    subst hsplit
    exact hx.left
  have hfull : limit ≤ (live w t (granted u pre)).length := by
    have hanswer := hx pre _ post hsplit
    simpa [hu] using hanswer
  have hpast : ∀ s ∈ granted u pre, s ≤ t := by
    intro s hs
    obtain ⟨a, ha, rfl⟩ := mem_granted hs
    rw [hsplit, List.map_append, InOrder, List.pairwise_append] at horder
    exact horder.2.2 _ (List.mem_map_of_mem ha) ⟨u, t⟩ (by simp)
  have hbound := hpre.bounded hlimit hu (t - w)
  rw [sub_add_cancel] at hbound
  have hsame : (granted u pre).countP (fun s => t - w ≤ s ∧ s ≤ t) =
      (live w t (granted u pre)).length := by
    rw [length_live]
    apply List.countP_congr
    intro s hs
    simp [hpast s hs]
  omega

end Bounds

section Independence

/-- The answer to one user depends on that user's own queue alone. -/
theorem allow_congr (hu : hits u = hits' u) :
    (allow exempt w limit hits u now).1 = (allow exempt w limit hits' u now).1 ∧
      (allow exempt w limit hits u now).2 u = (allow exempt w limit hits' u now).2 u := by
  rw [allow, allow]
  split <;> simp [hu]

theorem allow_other (hne : u ≠ v) : (allow exempt w limit hits v now).2 u = hits u := by
  rw [allow]
  split
  · rfl
  · exact Function.update_of_ne hne _ _

theorem answers_filter (hu : hits u = hits' u) :
    (SlidingWindow.answers (allow exempt w limit) hits calls).filter (fun a => a.user = u) =
      SlidingWindow.answers (allow exempt w limit) hits' (calls.filter fun c => c.user = u) := by
  induction calls generalizing hits hits' with
  | nil => rfl
  | cons c cs ih =>
    rw [SlidingWindow.answers]
    by_cases hc : c.user = u
    · subst hc
      have hfst : (allow exempt w limit hits c.user c.now).1 =
          (allow exempt w limit hits' c.user c.now).1 := (allow_congr hu).1
      rw [List.filter_cons_of_pos (by simp), List.filter_cons_of_pos (by simp),
        SlidingWindow.answers, hfst, ih (allow_congr hu).2]
    · rw [List.filter_cons_of_neg (by simpa using hc), List.filter_cons_of_neg (by simpa using hc)]
      apply ih
      rw [allow_other (Ne.symm hc), hu]

end Independence

end Limiter

section Units

variable {τ' : Type*} [AddCommGroup τ] [LinearOrder τ] [AddCommGroup τ'] [LinearOrder τ']
  {f : τ → τ'} {w' : τ'} {late : ι → List τ'}

/-- The window and the times told in other units. -/
def SameAge (f : τ → τ') (w : τ) (w' : τ') : Prop := ∀ s t, w' < f s - f t ↔ w < s - t

theorem SameAge.expire (hf : SameAge f w w') :
    expire w' (f now) (q.map f) = (expire w now q).map f := by
  rw [SlidingWindow.expire, SlidingWindow.expire, List.dropWhile_map]
  congr 2
  funext t
  simp [hf now t]

theorem SameAge.accept (hf : SameAge f w w') :
    accept w' limit (f now) (q.map f) =
      ((accept w limit now q).1, (accept w limit now q).2.map f) := by
  simp only [SlidingWindow.accept, hf.expire, List.length_map]
  split <;> simp

/-- Two limiters that differ in their units and in whom they exempt give the same answers to the
users that neither exempts. -/
theorem SameAge.answers (hf : SameAge f w w') (exempt exempt' : ι → Bool)
    (hsame : ∀ u, exempt u = false → exempt' u = false → late u = (hits u).map f) :
    List.Forall₂
      (fun a b => a.user = b.user ∧ b.now = f a.now ∧
        (exempt a.user = false → exempt' a.user = false → a.allowed = b.allowed))
      (SlidingWindow.answers (allow exempt w limit) hits calls)
      (SlidingWindow.answers (allow exempt' w' limit) late
        (calls.map fun c => ⟨c.user, f c.now⟩)) := by
  induction calls generalizing hits late with
  | nil => exact List.Forall₂.nil
  | cons c cs ih =>
    rw [SlidingWindow.answers, List.map_cons, SlidingWindow.answers]
    apply List.Forall₂.cons
    · refine ⟨rfl, rfl, ?_⟩
      intro h h'
      simp [allow, h, h', hsame c.user h h', hf.accept]
    · apply ih
      intro u h h'
      by_cases hu : u = c.user
      · subst hu
        simp [allow, h, h', hsame _ h h', hf.accept]
      · rw [allow_other hu, allow_other hu, hsame u h h']

end Units

end SlidingWindow
