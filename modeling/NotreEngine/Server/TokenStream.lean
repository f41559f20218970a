import NotreEngine.Transition
import NotreEngine.Server.Emitter

/-!
# The event stream of a chat reply

The engine's job fills a `TokenStream` while the content provider of the response empties it, one
piece a call. Whatever a thread does under the lock, or with one flag or one write, is one step.
-/
namespace NotreEngine.Server

open Transition
open Gguf (text)

structure TokenStream where
  q : List Str := []
  done : Bool := false
  failed : Bool := false
  aborted : Bool := false
  deriving DecidableEq

namespace TokenStream

inductive Pull where
  | piece (s : Str)
  | drained
  | timeout
  deriving DecidableEq

def push (st : TokenStream) (s : Str) : TokenStream := { st with q := st.q ++ [s] }

def finish (st : TokenStream) (ok : Bool) : TokenStream := { st with done := true, failed := !ok }

/-- What `pull` returns at the moment its wait is over. As long as there is nothing to report only
the clock ends the wait. -/
def pull (st : TokenStream) : Pull × TokenStream :=
  if !(st.done || st.aborted || !st.q.isEmpty) then (.timeout, st)
  else
    match st.q with
    | s :: q => (.piece s, { st with q := q })
    | [] => (.drained, st)

end TokenStream

/-- The events a client can see. -/
inductive Chunk where
  | role
  | content (piece : Str)
  | finish (reason : Str)
  | done
  deriving DecidableEq

inductive JobAt where
  | generating
  | pushing (piece : Str)
  | finished
  deriving DecidableEq

/-- Where the content provider is: outside, inside a call, or gone with an exception. -/
inductive ProviderAt where
  | out
  | pulling
  | polling
  | ended
  | sending (c : Chunk)
  | threw (c : Chunk)
  deriving DecidableEq

/-- The state both threads share, what the socket has accepted and whether it has broken, and a
history: the pieces pushed, those pulled, the values the provider has returned, and whether the
peer has looked dead. -/
structure StreamState where
  stream : TokenStream := {}
  finishReason : Str := []
  headerSent : Bool := false
  finalSent : Bool := false
  job : JobAt := .generating
  provider : ProviderAt := .out
  written : List Chunk := []
  broken : Bool := false
  closed : Bool := false
  pushed : List Str := []
  taken : List Str := []
  results : List Bool := []
  gone : Bool := false
  deriving DecidableEq

namespace StreamState

def leave (s : StreamState) (again : Bool) : StreamState :=
  { s with provider := .out, results := s.results ++ [again] }

/-- A call up to its first wait or write. -/
def enter (s : StreamState) : StreamState :=
  if s.finalSent then s.leave false
  else if !s.headerSent then { s with headerSent := true, provider := .sending .role }
  else { s with provider := .pulling }

def pulled (s : StreamState) : StreamState :=
  match s.stream.pull with
  | (.timeout, st) => { s with stream := st, provider := .polling }
  | (.piece p, st) =>
    { s with stream := st, provider := .sending (.content p), taken := s.taken ++ [p] }
  | (.drained, st) => { s with stream := st, provider := .ended }

/-- `sink.is_writable() ? true : peer_gone()`. -/
def polled (s : StreamState) (writable : Bool) : StreamState :=
  if writable then s.leave true
  else { s with stream := { s.stream with aborted := true }, gone := true }.leave false

def settle (s : StreamState) : StreamState :=
  if !s.stream.failed && !s.stream.aborted then
    { s with provider := .sending (.finish s.finishReason) }
  else { s with finalSent := true }.leave false

/-- The effect of a write on the connection. -/
def wrote (s : StreamState) (c : Chunk) (ok : Bool) : StreamState :=
  { s with written := if ok then s.written ++ [c] else s.written, broken := s.broken || !ok }

/-- What the provider does after a write. It does not look at the result of the last event but
one. -/
def sent (s : StreamState) : Chunk → Bool → StreamState
  | .role, ok =>
    let s := { s with stream := { s.stream with aborted := s.stream.aborted || !ok } }
    s.leave !s.stream.aborted
  | .content _, ok =>
    { s with stream := { s.stream with aborted := s.stream.aborted || !ok } }.leave true
  | .finish _, _ => { s with provider := .sending .done }
  | .done, ok => { s with closed := s.closed || ok, finalSent := true }.leave false

end StreamState

inductive StreamEvent where
  | emit (piece : Str)
  | surface (piece : Str)
  | push
  | finish (n : Int) (reason : Str)
  | call
  | pull
  | poll (writable : Bool)
  | settle
  | throw
  | write (ok : Bool)

/-- `dumps` says which events can be written as JSON text: `dump` throws on a string that is not
UTF-8, and an exception of the provider ends its calls. A socket that has failed once stays
broken. -/
inductive StreamStep (dumps : Chunk → Bool) : StreamState → StreamEvent → StreamState → Prop
  | emit {s piece} : s.job = .generating →
      StreamStep dumps s (.emit piece)
        (if s.stream.aborted || piece.isEmpty then s else { s with job := .pushing piece })
  | surface {s piece} : s.job = .generating →
      StreamStep dumps s (.surface piece) { s with job := .pushing piece }
  | push {s piece} : s.job = .pushing piece →
      StreamStep dumps s .push
        { s with
          stream := s.stream.push piece
          job := .generating
          pushed := s.pushed ++ [piece] }
  | finish {s n reason} : s.job = .generating →
      StreamStep dumps s (.finish n reason)
        { s with
          stream := s.stream.finish (0 ≤ n ∧ reason ≠ text "error")
          finishReason := reason
          job := .finished }
  | call {s} : s.provider = .out → StreamStep dumps s .call s.enter
  | pull {s} : s.provider = .pulling → StreamStep dumps s .pull s.pulled
  | poll {s writable} : s.provider = .polling →
      StreamStep dumps s (.poll writable) (s.polled writable)
  | settle {s} : s.provider = .ended → StreamStep dumps s .settle s.settle
  | throw {s c} : s.provider = .sending c → c ≠ .done → dumps c = false →
      StreamStep dumps s .throw { s with provider := .threw c }
  | write {s c ok} : s.provider = .sending c → c = .done ∨ dumps c = true →
      (ok = true → s.broken = false) →
      StreamStep dumps s (.write ok) ((s.wrote c ok).sent c ok)

def streamSystem (dumps : Chunk → Bool) : System StreamState StreamEvent where
  start s := s = {}
  step := StreamStep dumps

namespace TokenStream

/-- The events that end a reply: there are none unless the job has finished well and the stream
was not aborted. -/
def ending (st : TokenStream) (reason : Str) : List Chunk :=
  if st.done && !st.failed && !st.aborted then [.finish reason, .done] else []

/-- The queue has run empty and no more pieces come, or nobody waits for them. -/
def Drained (st : TokenStream) : Prop := st.aborted = true ∨ st.done = true ∧ st.q = []

end TokenStream

/-- The events a reply consists of, as far as its job has got. -/
def StreamState.reply (s : StreamState) : List Chunk :=
  .role :: s.pushed.map .content ++ s.stream.ending s.finishReason

/-- The event a call is about to write. -/
def ProviderAt.inHand : ProviderAt → List Chunk
  | .sending c | .threw c => [c]
  | _ => []

/-- The part of the ending that begins with the given event. -/
def Chunk.closing (reason : Str) : Chunk → List Chunk
  | .finish _ => [.finish reason]
  | .done => [.finish reason, .done]
  | _ => []

namespace StreamState

/-- The events the provider has set out to write. -/
def begun (s : StreamState) : List Chunk :=
  (if s.headerSent then [.role] else []) ++ s.taken.map .content ++
    if s.finalSent then s.stream.ending s.finishReason
    else s.provider.inHand.flatMap (Chunk.closing s.finishReason)

/-- The invariant of all runs. -/
structure Ordered (s : StreamState) : Prop where
  handed : s.pushed = s.taken ++ s.stream.q
  script : ∃ tried, s.begun = tried ++ s.provider.inHand ∧ s.written <+: tried ∧
    (s.broken = false → s.written = tried)
  aborts : s.stream.aborted = true → s.broken = true ∨ s.gone = true
  finished : s.stream.done = true ↔ s.job = .finished
  unopened : s.headerSent = false → s.taken = [] ∧ s.provider = .out ∧ s.finalSent = false
  inside : s.provider ≠ .out → s.finalSent = false
  ended : s.provider = .ended → s.stream.Drained
  closing : ∀ c ∈ s.provider.inHand, c.closing s.finishReason ≠ [] →
    s.stream.ending s.finishReason ≠ [] ∧ s.stream.q = []
  final : s.finalSent = true → s.stream.Drained
  refused : false ∈ s.results → s.finalSent = true ∨ s.stream.aborted = true

variable {s t : StreamState}

theorem ordered_start : Ordered {} where
  handed := rfl
  script := ⟨[], rfl, List.prefix_rfl, fun _ => rfl⟩
  aborts h := by cases h
  finished := by simp
  unopened _ := ⟨rfl, rfl, rfl⟩
  inside h := absurd rfl h
  ended h := by cases h
  closing c h := by cases h
  final h := by cases h
  refused h := by cases h

section Job

theorem Ordered.done_eq_false (h : s.Ordered) (hj : s.job ≠ .finished) : s.stream.done = false := by
  cases hd : s.stream.done with
  | false => rfl
  | true => exact absurd (h.finished.mp hd) hj

theorem Ordered.aborted_of_drained (h : s.Ordered) (hj : s.job ≠ .finished)
    (hd : s.stream.Drained) : s.stream.aborted = true := by
  rcases hd with ha | ⟨hd, -⟩
  · exact ha
  · rw [h.done_eq_false hj] at hd
    cases hd

theorem Ordered.ending_eq_nil (h : s.Ordered) (hj : s.job ≠ .finished) :
    s.stream.ending s.finishReason = [] := by
  simp [TokenStream.ending, h.done_eq_false hj]

/-- While the job runs, the provider has no event of the ending in hand. -/
theorem Ordered.closing_eq_nil (h : s.Ordered) (hj : s.job ≠ .finished) (reason : Str) {c : Chunk}
    (hc : c ∈ s.provider.inHand) : c.closing reason = [] := by
  have hn : c.closing s.finishReason = [] := by
    by_contra hn
    exact (h.closing c hc hn).1 (h.ending_eq_nil hj)
  cases c <;> simp_all [Chunk.closing]

/-- What the job does before it has finished leaves the provider's part of the invariant alone. -/
theorem Ordered.job (h : s.Ordered) (hj : s.job ≠ .finished) {q pushed : List Str} {d f : Bool}
    {job : JobAt} {reason : Str} (hq : pushed = s.taken ++ q) (hd : d = true ↔ job = .finished) :
    Ordered { s with
      stream := { s.stream with q := q, done := d, failed := f }
      job := job, pushed := pushed, finishReason := reason } where
  handed := hq
  script := by
    obtain ⟨tried, hb, hw⟩ := h.script
    refine ⟨tried, ?_, hw⟩
    rw [← hb]
    have hs : s.provider.inHand.flatMap (Chunk.closing s.finishReason) = [] :=
      List.flatMap_eq_nil_iff.mpr fun c hc => h.closing_eq_nil hj _ hc
    have ht : s.provider.inHand.flatMap (Chunk.closing reason) = [] :=
      List.flatMap_eq_nil_iff.mpr fun c hc => h.closing_eq_nil hj _ hc
    cases hf : s.finalSent with
    | false => simp [begun, hf, hs, ht]
    | true =>
      have ha := h.aborted_of_drained hj (h.final hf)
      simp [begun, hf, TokenStream.ending, ha]
  aborts := h.aborts
  finished := hd
  unopened := h.unopened
  inside := h.inside
  ended hp := .inl (h.aborted_of_drained hj (h.ended hp))
  closing c hc hn := absurd (h.closing_eq_nil hj reason hc) hn
  final hf := .inl (h.aborted_of_drained hj (h.final hf))
  refused := h.refused

end Job

section Provider

theorem Ordered.headerSent (h : s.Ordered) (hp : s.provider ≠ .out) : s.headerSent = true := by
  cases hs : s.headerSent with
  | true => rfl
  | false => exact absurd (h.unopened hs).2.1 hp

/-- Between two calls only the script, the flags and the results matter. -/
theorem ordered_out (hp : s.provider = .out) (hh : s.pushed = s.taken ++ s.stream.q)
    (hs : s.written <+: s.begun ∧ (s.broken = false → s.written = s.begun))
    (ha : s.stream.aborted = true → s.broken = true ∨ s.gone = true)
    (hf : s.stream.done = true ↔ s.job = .finished)
    (hu : s.headerSent = false → s.taken = [] ∧ s.finalSent = false)
    (hd : s.finalSent = true → s.stream.Drained)
    (hr : false ∈ s.results → s.finalSent = true ∨ s.stream.aborted = true) : s.Ordered where
  handed := hh
  script := ⟨s.begun, by simp [hp, ProviderAt.inHand], hs⟩
  aborts := ha
  finished := hf
  unopened hn := ⟨(hu hn).1, hp, (hu hn).2⟩
  inside hn := absurd hp hn
  ended hn := by simp [hp] at hn
  closing c hc := by simp [hp, ProviderAt.inHand] at hc
  final := hd
  refused := hr

/-- Inside a call the invariant is about the event in hand. -/
theorem ordered_inside {tried : List Chunk}
    (hh : s.pushed = s.taken ++ s.stream.q) (hf : s.finalSent = false) (hs : s.headerSent = true)
    (hb : s.begun = tried ++ s.provider.inHand)
    (hw : s.written <+: tried ∧ (s.broken = false → s.written = tried))
    (ha : s.stream.aborted = true → s.broken = true ∨ s.gone = true)
    (hd : s.stream.done = true ↔ s.job = .finished)
    (he : s.provider = .ended → s.stream.Drained)
    (hc : ∀ c ∈ s.provider.inHand, c.closing s.finishReason ≠ [] →
      s.stream.ending s.finishReason ≠ [] ∧ s.stream.q = [])
    (hr : false ∈ s.results → s.stream.aborted = true) : s.Ordered where
  handed := hh
  script := ⟨tried, hb, hw⟩
  aborts := ha
  finished := hd
  unopened hn := by rw [hs] at hn; cases hn
  inside _ := hf
  ended := he
  closing := hc
  final hn := by rw [hf] at hn; cases hn
  refused hn := .inr (hr hn)

theorem Ordered.refused_inside (h : s.Ordered) (hf : s.finalSent = false) (hr : false ∈ s.results) :
    s.stream.aborted = true := by
  rcases h.refused hr with hn | ha
  · rw [hf] at hn
    cases hn
  · exact ha

theorem Ordered.enter (h : s.Ordered) (hp : s.provider = .out) : s.enter.Ordered := by
  obtain ⟨tried, hb, hw⟩ := h.script
  simp only [hp, ProviderAt.inHand, List.append_nil] at hb
  unfold StreamState.enter
  split
  · rename_i hf
    refine ordered_out rfl h.handed ?_ h.aborts h.finished ?_ h.final fun _ => .inl hf
    · rw [← hb] at hw
      simpa [leave, begun, hf] using hw
    · intro hs
      obtain ⟨ht, -, hn⟩ := h.unopened hs
      exact ⟨ht, hn⟩
  rename_i hf
  replace hf : s.finalSent = false := by simpa using hf
  have hr := h.refused_inside hf
  split
  · rename_i hs
    replace hs : s.headerSent = false := by simpa using hs
    have ht : tried = [] := by
      rw [← hb]
      simp [begun, hs, hf, hp, ProviderAt.inHand, (h.unopened hs).1]
    rw [ht] at hw
    refine ordered_inside h.handed hf rfl ?_ hw h.aborts h.finished (by simp) ?_ hr
    · simp [begun, hf, ProviderAt.inHand, (h.unopened hs).1, Chunk.closing]
    · simp [ProviderAt.inHand, Chunk.closing]
  · rename_i hs
    replace hs : s.headerSent = true := by simpa using hs
    refine ordered_inside h.handed hf hs ?_ hw h.aborts h.finished (by simp) ?_ hr
    · rw [← hb]
      simp [begun, hp, ProviderAt.inHand]
    · simp [ProviderAt.inHand]

/-- The three answers of `pull`, each with what it says about the queue. -/
theorem pull_cases (st : TokenStream) :
    (∃ p q, st.q = p :: q ∧ st.pull = (.piece p, { st with q := q })) ∨
    (st.q = [] ∧ st.Drained ∧ st.pull = (.drained, st)) ∨
    (st.q = [] ∧ ¬ st.Drained ∧ st.pull = (.timeout, st)) := by
  obtain ⟨q, d, f, a⟩ := st
  cases q with
  | cons p q => exact .inl ⟨p, q, rfl, by simp [TokenStream.pull]⟩
  | nil => cases d <;> cases a <;> simp [TokenStream.pull, TokenStream.Drained]

theorem Ordered.pulled (h : s.Ordered) (hp : s.provider = .pulling) : s.pulled.Ordered := by
  have hn : s.provider ≠ .out := by simp [hp]
  have hf := h.inside hn
  have hs := h.headerSent hn
  have hr := h.refused_inside hf
  obtain ⟨tried, hb, hw⟩ := h.script
  simp only [hp, ProviderAt.inHand, List.append_nil] at hb
  unfold StreamState.pulled
  rcases pull_cases s.stream with ⟨p, q, hq, he⟩ | ⟨-, hd, he⟩ | ⟨-, -, he⟩ <;> rw [he]
  · refine ordered_inside ?_ hf hs ?_ hw h.aborts h.finished (by simp) ?_ hr
    · simp [h.handed, hq]
    · rw [← hb]
      simp [begun, hf, hs, hp, ProviderAt.inHand, Chunk.closing]
    · simp [ProviderAt.inHand, Chunk.closing]
  · refine ordered_inside h.handed hf hs ?_ hw h.aborts h.finished (fun _ => hd) ?_ hr
    · rw [← hb]
      simp [begun, hf, hp, ProviderAt.inHand]
    · simp [ProviderAt.inHand]
  · refine ordered_inside h.handed hf hs ?_ hw h.aborts h.finished (by simp) ?_ hr
    · rw [← hb]
      simp [begun, hf, hp, ProviderAt.inHand]
    · simp [ProviderAt.inHand]

theorem Ordered.polled (h : s.Ordered) (hp : s.provider = .polling) (writable : Bool) :
    (s.polled writable).Ordered := by
  have hf := h.inside (by simp [hp])
  have hs := h.headerSent (by simp [hp])
  have hr := h.refused_inside hf
  obtain ⟨tried, hb, hw⟩ := h.script
  simp only [hp, ProviderAt.inHand, List.append_nil] at hb
  rw [← hb] at hw
  simp only [begun, hf, hp, ProviderAt.inHand] at hw
  cases writable with
  | true =>
    refine ordered_out rfl h.handed ?_ h.aborts h.finished (by simp [leave, StreamState.polled, hs])
      (by simp [leave, StreamState.polled, hf]) ?_
    · simpa [leave, StreamState.polled, begun, hf, ProviderAt.inHand] using hw
    · intro hm
      exact .inr (hr (by simpa [leave, StreamState.polled] using hm))
  | false =>
    refine ordered_out rfl h.handed ?_ (fun _ => .inr rfl) h.finished
      (by simp [leave, StreamState.polled, hs]) (by simp [leave, StreamState.polled, hf])
      fun _ => .inr rfl
    simpa [leave, StreamState.polled, begun, hf, ProviderAt.inHand] using hw

theorem Ordered.settle (h : s.Ordered) (hp : s.provider = .ended) : s.settle.Ordered := by
  have hf := h.inside (by simp [hp])
  have hs := h.headerSent (by simp [hp])
  have hd := h.ended hp
  obtain ⟨tried, hb, hw⟩ := h.script
  simp only [hp, ProviderAt.inHand, List.append_nil] at hb
  unfold StreamState.settle
  split
  · rename_i hok
    obtain ⟨hfail, ha⟩ : s.stream.failed = false ∧ s.stream.aborted = false := by simpa using hok
    obtain ⟨hdone, hq⟩ : s.stream.done = true ∧ s.stream.q = [] := by
      simpa [TokenStream.Drained, ha] using hd
    refine ordered_inside h.handed hf hs ?_ hw h.aborts h.finished (by simp) ?_
      (h.refused_inside hf)
    · rw [← hb]
      simp [begun, hf, hs, hp, ProviderAt.inHand, Chunk.closing]
    · simp [ProviderAt.inHand, TokenStream.ending, hdone, hfail, ha, hq]
  · rename_i hok
    have he : s.stream.ending s.finishReason = [] := by
      simp only [TokenStream.ending]
      split <;> simp_all
    refine ordered_out rfl h.handed ?_ h.aborts h.finished (by simp [leave, hs]) (fun _ => hd)
      fun _ => .inl rfl
    rw [← hb] at hw
    simpa [leave, begun, hf, hs, hp, he, ProviderAt.inHand] using hw

theorem Ordered.throw (h : s.Ordered) {c : Chunk} (hp : s.provider = .sending c) :
    Ordered { s with provider := .threw c } := by
  have hf := h.inside (by simp [hp])
  have hs := h.headerSent (by simp [hp])
  obtain ⟨tried, hb, hw⟩ := h.script
  have hc := h.closing
  simp only [hp, ProviderAt.inHand] at hb hc
  refine ordered_inside h.handed hf hs ?_ hw h.aborts h.finished (by simp) hc
    (h.refused_inside hf)
  rw [ProviderAt.inHand, ← hb]
  simp [begun, hf, hp, ProviderAt.inHand]

/-- A write keeps what is written a prefix of what was tried, all of it as long as the socket
works. -/
theorem wrote_written {tried : List Chunk} {c : Chunk} {ok : Bool}
    (hw : s.written <+: tried ∧ (s.broken = false → s.written = tried))
    (hok : ok = true → s.broken = false) :
    (s.wrote c ok).written <+: tried ++ [c] ∧
      ((s.wrote c ok).broken = false → (s.wrote c ok).written = tried ++ [c]) := by
  cases ok with
  | true => simp [wrote, hw.2 (hok rfl)]
  | false => exact ⟨hw.1.trans (List.prefix_append _ _), by simp [wrote]⟩

/-- An ending there is, is whole. -/
theorem ending_eq {st : TokenStream} {reason : Str} (h : st.ending reason ≠ []) :
    st.ending reason = [.finish reason, .done] ∧ st.done = true := by
  unfold TokenStream.ending at h ⊢
  split at h
  · simp_all
  · exact absurd rfl h

/-- After the role or a piece, a failed write has aborted the stream. -/
theorem Ordered.wrote_aborted (h : s.Ordered) (c : Chunk) (ok : Bool) :
    (s.stream.aborted || !ok) = true → (s.wrote c ok).broken = true ∨ s.gone = true := by
  cases ok with
  | true => simpa [wrote] using h.aborts
  | false => simp [wrote]

theorem Ordered.write (h : s.Ordered) {c : Chunk} {ok : Bool} (hp : s.provider = .sending c)
    (hok : ok = true → s.broken = false) : ((s.wrote c ok).sent c ok).Ordered := by
  have hf := h.inside (by simp [hp])
  have hs := h.headerSent (by simp [hp])
  have hr := h.refused_inside hf
  obtain ⟨tried, hb, hw⟩ := h.script
  have hc := h.closing
  simp only [hp, ProviderAt.inHand, List.mem_singleton, forall_eq] at hb hc
  replace hw := wrote_written (c := c) hw hok
  rw [← hb] at hw
  have ha := h.wrote_aborted c ok
  cases c with
  | role =>
    refine ordered_out rfl h.handed ?_ ha h.finished (by simp [sent, leave, wrote, hs])
      (by simp [sent, leave, wrote, hf]) ?_
    · simpa [sent, leave, begun, hf, hs, hp, wrote, ProviderAt.inHand, Chunk.closing] using hw
    · intro hm
      rcases List.mem_append.mp hm with hm | hm
      · exact .inr (by simp [sent, leave, wrote, hr hm])
      · refine .inr ?_
        rcases Bool.eq_false_or_eq_true s.stream.aborted with hb | hb <;>
          simp_all [sent, leave, wrote]
  | content p =>
    refine ordered_out rfl h.handed ?_ ha h.finished (by simp [sent, leave, wrote, hs])
      (by simp [sent, leave, wrote, hf]) ?_
    · simpa [sent, leave, begun, hf, hs, hp, wrote, ProviderAt.inHand, Chunk.closing] using hw
    · intro hm
      have hm : false ∈ s.results := by simpa [sent, leave, wrote] using hm
      exact .inr (by simp [sent, leave, wrote, hr hm])
  | finish r =>
    obtain ⟨he, hq⟩ := hc (by simp [Chunk.closing])
    refine ordered_inside h.handed hf hs ?_ hw
      (fun hm => ha (by simpa using .inl hm)) h.finished (by simp [sent]) ?_ hr
    · simp [sent, begun, hf, hp, wrote, ProviderAt.inHand, Chunk.closing]
    · intro c hc _
      exact ⟨he, hq⟩
  | done =>
    obtain ⟨he, hq⟩ := hc (by simp [Chunk.closing])
    obtain ⟨he, hd⟩ := ending_eq he
    refine ordered_out rfl h.handed ?_ (fun hm => ha (by simpa using .inl hm)) h.finished
      (by simp [sent, leave, wrote, hs]) (fun _ => .inr ⟨hd, hq⟩) fun _ => .inl rfl
    simpa [sent, leave, begun, hf, hs, hp, wrote, he, ProviderAt.inHand, Chunk.closing] using hw

end Provider

theorem ordered_step {dumps : Chunk → Bool} {e : StreamEvent} (h : s.Ordered)
    (hs : StreamStep dumps s e t) : t.Ordered := by
  cases hs with
  | emit hj =>
    split
    · exact h
    · exact h.job (by simp [hj]) h.handed (by simp [h.done_eq_false (by simp [hj])])
  | surface hj => exact h.job (by simp [hj]) h.handed (by simp [h.done_eq_false (by simp [hj])])
  | push hj =>
    refine h.job (by simp [hj]) ?_ (by simp [h.done_eq_false (by simp [hj])])
    simp [h.handed]
  | finish hj => exact h.job (by simp [hj]) h.handed (by simp)
  | call hp => exact h.enter hp
  | pull hp => exact h.pulled hp
  | poll hp => exact h.polled hp _
  | settle hp => exact h.settle hp
  | throw hp => exact h.throw hp
  | write hp _ hok => exact h.write hp hok

theorem ordered_reachable {dumps : Chunk → Bool} (h : (streamSystem dumps).Reachable s) :
    s.Ordered := by
  apply h.invariant
  · intro s hs
    rw [hs]
    exact ordered_start
  · intro s e t hi hs
    exact ordered_step hi hs

theorem closing_prefix (c : Chunk) (reason : Str) :
    c.closing reason <+: [.finish reason, .done] := by
  cases c <;> simp [Chunk.closing]

/-- Pieces still queued come before any part of the ending. -/
theorem Ordered.prefix_reply (h : s.Ordered) {rest : List Chunk}
    (hr : rest ≠ [] → rest <+: s.stream.ending s.finishReason ∧ s.stream.q = []) :
    .role :: s.taken.map .content ++ rest <+: s.reply := by
  rcases rest with - | ⟨c, rest⟩
  · simp [reply, h.handed]
  · obtain ⟨hp, hq⟩ := hr (by simp)
    simpa [reply, h.handed, hq] using hp

/-- What the provider has begun is the beginning of the reply. -/
theorem Ordered.begun_prefix (h : s.Ordered) : s.begun <+: s.reply := by
  cases hs : s.headerSent with
  | false =>
    obtain ⟨ht, hp, hf⟩ := h.unopened hs
    simp [begun, hs, ht, hp, hf, ProviderAt.inHand]
  | true =>
    simp only [begun, hs, if_true, List.singleton_append]
    apply h.prefix_reply
    intro hn
    cases hf : s.finalSent with
    | true =>
      simp only [hf, if_true] at hn ⊢
      refine ⟨List.prefix_rfl, ?_⟩
      rcases h.final hf with ha | ⟨-, hq⟩
      · simp [TokenStream.ending, ha] at hn
      · exact hq
    | false =>
      simp only [hf, Bool.false_eq_true, if_false] at hn ⊢
      have hc := h.closing
      cases hp : s.provider <;> simp only [hp, ProviderAt.inHand, List.flatMap_nil, ne_eq,
        not_true_eq_false, List.flatMap_singleton, List.mem_singleton, forall_eq] at hn hc ⊢
      all_goals
        obtain ⟨he, hq⟩ := hc hn
        exact ⟨(ending_eq he).1 ▸ closing_prefix _ _, hq⟩

/-- **The event stream.** In every state the socket has accepted a prefix of the reply: the role,
each pushed piece once and in order, and the ending once the job has finished well. When the
provider has declined a further call although no write failed and the peer never looked dead, the
job has finished and the whole reply is written. And `pull` says `drained` only when it has handed
out every piece pushed. -/
theorem written_reply {dumps : Chunk → Bool} (h : (streamSystem dumps).Reachable s) :
    s.written <+: s.reply ∧
    (false ∈ s.results → s.broken = false → s.gone = false →
      s.stream.done = true ∧ s.written = s.reply) ∧
    (s.provider = .pulling → s.stream.pull.1 = .drained → s.taken = s.pushed) := by
  have ho := ordered_reachable h
  obtain ⟨tried, hb, hw, hall⟩ := ho.script
  refine ⟨?_, ?_, ?_⟩
  · exact hw.trans ((hb ▸ List.prefix_append _ _).trans ho.begun_prefix)
  · intro hr hbr hg
    have ha : s.stream.aborted = false := by
      cases ha : s.stream.aborted with
      | false => rfl
      | true => simpa [hbr, hg] using ho.aborts ha
    have hf : s.finalSent = true := by simpa [ha] using ho.refused hr
    obtain ⟨hd, hq⟩ : s.stream.done = true ∧ s.stream.q = [] := by
      simpa [TokenStream.Drained, ha] using ho.final hf
    have hp : s.provider = .out := by
      by_contra hp
      simpa [hf] using ho.inside hp
    have hs : s.headerSent = true := by
      by_contra hs
      simpa [hf] using (ho.unopened (by simpa using hs)).2.2
    refine ⟨hd, ?_⟩
    rw [hall hbr, ← List.append_nil tried]
    simpa [hp, ProviderAt.inHand, begun, hs, hf, reply, ho.handed, hq] using hb.symm
  · intro _ hp
    rcases pull_cases s.stream with ⟨p, q, -, he⟩ | ⟨hq, -, -⟩ | ⟨-, -, he⟩
    · simp [he] at hp
    · simp [ho.handed, hq]
    · simp [he] at hp

/-- A reply of one piece, which the provider waited for once in vain. -/
def hello : StreamState where
  stream := { done := true }
  finishReason := text "stop"
  headerSent := true
  finalSent := true
  job := .finished
  written := [.role, .content (text "Hi"), .finish (text "stop"), .done]
  closed := true
  pushed := [text "Hi"]
  taken := [text "Hi"]
  results := [true, true, true, false]

theorem hello_reachable : (streamSystem fun _ => true).Reachable hello := by
  have h : (streamSystem fun _ => true).Reachable {} := .start rfl
  replace h := h.step (.call rfl)
  replace h := h.step (@StreamStep.write _ _ .role true rfl (.inr rfl) fun _ => rfl)
  replace h := h.step (.call rfl)
  replace h := h.step (.pull rfl)
  replace h := h.step (@StreamStep.poll _ _ true rfl)
  replace h := h.step (@StreamStep.emit _ _ (text "Hi") rfl)
  replace h := h.step (@StreamStep.push _ _ (text "Hi") rfl)
  replace h := h.step (.call rfl)
  replace h := h.step (@StreamStep.finish _ _ 1 (text "stop") rfl)
  replace h := h.step (.pull rfl)
  replace h := h.step
    (@StreamStep.write _ _ (.content (text "Hi")) true rfl (.inr rfl) fun _ => rfl)
  replace h := h.step (.call rfl)
  replace h := h.step (.pull rfl)
  replace h := h.step (.settle rfl)
  replace h := h.step
    (@StreamStep.write _ _ (.finish (text "stop")) true rfl (.inr rfl) fun _ => rfl)
  replace h := h.step (@StreamStep.write _ _ .done true rfl (.inl rfl) fun _ => rfl)
  exact h

theorem written_reply_hello :
    hello.written = hello.reply ∧ hello.reply.length = 4 :=
  ⟨((written_reply hello_reachable).2.1 (by decide) rfl rfl).2, by decide⟩

end StreamState

end NotreEngine.Server
