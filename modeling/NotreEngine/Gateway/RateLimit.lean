import NotreEngine.Basic
import NotreEngine.SlidingWindow

/-!
# The two rate limiters

`RateLimiter` of the engine (`cne_api.cpp`), on the nanoseconds of its steady clock, and of the
gateway (`auth.py`), on exact seconds. Both are sliding windows of a minute; the engine exempts the
empty user.
-/

namespace NotreEngine.Gateway

open SlidingWindow

structure EngineLimiter where
  rpm : Int
  hits : Str → List Int := fun _ => []

def EngineLimiter.allow (l : EngineLimiter) (userId : Str) (now : Int) : Bool × EngineLimiter :=
  if l.rpm ≤ 0 ∨ userId = [] then (true, l)
  else
    let window := 60 * 10 ^ 9
    let q := expire window now (l.hits userId)
    if l.rpm ≤ q.length then (false, { l with hits := Function.update l.hits userId q })
    else (true, { l with hits := Function.update l.hits userId (q ++ [now]) })

structure GatewayLimiter where
  rpm : Int
  hits : Str → List ℚ := fun _ => []

def GatewayLimiter.allow (l : GatewayLimiter) (userId : Str) (now : ℚ) : Bool × GatewayLimiter :=
  if l.rpm ≤ 0 then (true, l)
  else
    let window := 60
    let q := expire window now (l.hits userId)
    if l.rpm ≤ q.length then (false, { l with hits := Function.update l.hits userId q })
    else (true, { l with hits := Function.update l.hits userId (q ++ [now]) })

/-- What a new limiter of the engine answers. -/
def engineAnswers (rpm : Int) (calls : List (Call Str Int)) : List (Answer Str Int) :=
  answers EngineLimiter.allow { rpm := rpm } calls

def gatewayAnswers (rpm : Int) (calls : List (Call Str ℚ)) : List (Answer Str ℚ) :=
  answers GatewayLimiter.allow { rpm := rpm } calls

/-- The same calls on the gateway's clock. -/
def inSeconds (calls : List (Call Str Int)) : List (Call Str ℚ) :=
  calls.map fun c => ⟨c.user, (c.now : ℚ) / 10 ^ 9⟩

/-- What a rate limiter with a window of `w` owes to its users. -/
structure KeepsLimit {τ : Type*} [AddCommGroup τ] [LinearOrder τ] (w : τ) (rpm : Int)
    (run : List (Call Str τ) → List (Answer Str τ)) (calls : List (Call Str τ)) : Prop where
  bounded : ∀ u ≠ [], ∀ t,
    ((granted u (run calls)).countP fun s => t ≤ s ∧ s ≤ t + w : Nat) ≤ rpm
  refused : ∀ u pre post t, run calls = pre ++ ⟨⟨u, t⟩, false⟩ :: post →
    ((granted u pre).countP fun s => t - w ≤ s ∧ s ≤ t : Nat) = rpm
  independent : ∀ u,
    (run calls).filter (fun a => a.user = u) = run (calls.filter fun c => c.user = u)

variable {rpm : Int} {hits : Str → List Int} {seconds : Str → List ℚ} {calls : List (Call Str Int)}
  {timed : List (Call Str ℚ)}

def anonymous (u : Str) : Bool := u = []

theorem engineAnswers_eq (hrpm : 0 < rpm) :
    answers EngineLimiter.allow ⟨rpm, hits⟩ calls =
      answers (allow anonymous (60 * 10 ^ 9) rpm) hits calls := by
  induction calls generalizing hits with
  | nil => rfl
  | cons c cs ih =>
    have hstep : EngineLimiter.allow ⟨rpm, hits⟩ c.user c.now =
        ((allow anonymous (60 * 10 ^ 9) rpm hits c.user c.now).1,
          ⟨rpm, (allow anonymous (60 * 10 ^ 9) rpm hits c.user c.now).2⟩) := by
      simp only [EngineLimiter.allow, allow, anonymous, accept, hrpm.not_ge, false_or,
        decide_eq_true_eq]
      split
      · rfl
      · split <;> rfl
    rw [answers, answers, hstep, ih]

theorem gatewayAnswers_eq (hrpm : 0 < rpm) :
    answers GatewayLimiter.allow ⟨rpm, seconds⟩ timed =
      answers (allow (fun _ => false) 60 rpm) seconds timed := by
  induction timed generalizing seconds with
  | nil => rfl
  | cons c cs ih =>
    have hstep : GatewayLimiter.allow ⟨rpm, seconds⟩ c.user c.now =
        ((allow (fun _ => false) 60 rpm seconds c.user c.now).1,
          ⟨rpm, (allow (fun _ => false) 60 rpm seconds c.user c.now).2⟩) := by
      simp only [GatewayLimiter.allow, allow, accept, hrpm.not_ge, if_false, Bool.false_eq_true]
      split <;> rfl
    rw [answers, answers, hstep, ih]

/-- A sliding window that exempts at most the empty user keeps its limit. -/
theorem keepsLimit_allow {τ : Type*} [AddCommGroup τ] [LinearOrder τ] [IsOrderedAddMonoid τ]
    {exempt : Str → Bool} {w : τ} {timed : List (Call Str τ)} (hrpm : 0 < rpm)
    (hexempt : ∀ u, exempt u = true → u = []) (horder : InOrder timed) :
    KeepsLimit w rpm (answers (allow exempt w rpm) fun _ => []) timed := by
  have hexact : Exact exempt w rpm (answers (allow exempt w rpm) (fun _ => []) timed) :=
    exact_answers horder
  have hlimited : ∀ u, exempt u = false →
      Limited w rpm (answers (allow exempt w rpm) (fun _ => []) timed) u := by
    intro u hu
    apply hexact.limited hrpm.le _ hu
    rwa [answers_toCall]
  refine ⟨?_, ?_, fun u => answers_filter rfl⟩
  · intro u hu
    have hnot : exempt u = false := by
      rw [Bool.eq_false_iff]
      exact fun h => hu (hexempt u h)
    exact (hlimited u hnot).bounded
  · intro u pre post t hsplit
    have hnot : exempt u = false := by
      rw [Bool.eq_false_iff]
      intro h
      have hanswer := hexact pre _ post hsplit
      simp [h] at hanswer
    exact (hlimited u hnot).refused pre post t hsplit

theorem sameAge_seconds : SameAge (fun t : Int => (t : ℚ) / 10 ^ 9) (60 * 10 ^ 9) 60 := by
  intro s t
  rw [← sub_div, lt_div_iff₀ (by norm_num)]
  exact_mod_cast Iff.rfl

/-- Both limiters keep the limit in every closed minute, whatever the other users do, and on the
same times they give the same answers to everyone but the empty user. -/
theorem rateLimits (hrpm : 0 < rpm) (calls : List (Call Str Int)) (horder : InOrder calls)
    (timed : List (Call Str ℚ)) (htimed : InOrder timed) :
    KeepsLimit (60 * 10 ^ 9) rpm (engineAnswers rpm) calls ∧
      KeepsLimit 60 rpm (gatewayAnswers rpm) timed ∧
      List.Forall₂ (fun a b => a.user = b.user ∧ (a.user ≠ [] → a.allowed = b.allowed))
        (engineAnswers rpm calls) (gatewayAnswers rpm (inSeconds calls)) := by
  have hengine : engineAnswers rpm = answers (allow anonymous (60 * 10 ^ 9) rpm) fun _ => [] :=
    funext fun _ => engineAnswers_eq hrpm
  have hgateway : gatewayAnswers rpm = answers (allow (fun _ => false) 60 rpm) fun _ => [] :=
    funext fun _ => gatewayAnswers_eq hrpm
  rw [hengine, hgateway]
  refine ⟨keepsLimit_allow hrpm (by simp [anonymous]) horder,
    keepsLimit_allow hrpm (by simp) htimed, ?_⟩
  rw [inSeconds]
  refine (sameAge_seconds.answers anonymous (fun _ => false) ?_).imp ?_
  · intro u _ _
    rfl
  · rintro a b ⟨huser, -, hallowed⟩
    exact ⟨huser, fun h => hallowed (by simpa [anonymous] using h) rfl⟩

/-- Three calls of one user, the last one at the far edge of the minute. -/
def threeCalls : List (Call Str Int) := [⟨[117], 0⟩, ⟨[117], 5⟩, ⟨[117], 60 * 10 ^ 9⟩]

theorem rateLimits_threeCalls :
    KeepsLimit (60 * 10 ^ 9) 2 (engineAnswers 2) threeCalls ∧
      KeepsLimit 60 2 (gatewayAnswers 2) (inSeconds threeCalls) ∧
      (engineAnswers 2 threeCalls).map (fun a => a.allowed) = [true, true, false] :=
  have h := rateLimits (show (0 : Int) < 2 by decide) threeCalls (by decide +kernel)
    (inSeconds threeCalls) (by decide +kernel)
  ⟨h.1, h.2.1, by decide +kernel⟩

/-- The gateway limits the empty user as well. -/
theorem not_sameAnswers :
    ¬ List.Forall₂ (fun a b => a.allowed = b.allowed) (engineAnswers 1 [⟨[], 0⟩, ⟨[], 0⟩])
      (gatewayAnswers 1 (inSeconds [⟨[], 0⟩, ⟨[], 0⟩])) := by
  decide +kernel

end NotreEngine.Gateway
