import Pyrite.Wire.Events
import Pyrite.Wire.Reactor

set_option autoImplicit false

/-! # Reactors with a deadline

The owner of a reactor waits for a message no longer than some time. A message that is complete ends the wait,
and the next wait begins when the owner is done with it; input alone does not prolong a wait. How long the
owner is busy with messages is up to it, and is counted apart. When a deadline passes without a message, the
owner gives up, and what arrives later is not looked at.

So time is bought with messages: whoever was waited for until some deadline has sent nearly as many messages as
there were timeouts until then (`arrive_within`). -/

namespace Wire

variable {σ β : Type}

/-- Input that is read at `time`; without any bytes, only time has passed. If it completes a message, the owner waits
    again at `resumed`. -/
structure Arrival (β : Type) where
  time : Nat
  chunk : List β
  resumed : Nat

/-- A reactor in a wait that ends at `deadline`. -/
structure Waiting (σ β : Type) where
  state : σ
  buffer : List β
  now : Nat
  deadline : Nat
  /-- How long the owner was busy, in all. -/
  busy : Nat

/-- A reactor under the clock. -/
inductive Timed (σ β : Type) where
  | waiting (p : Waiting σ β)
  /-- The deadline of `p` has passed without a message. -/
  | expired (p : Waiting σ β)

namespace Reactor

variable (m : Reactor σ β) (timeout : Nat)

/-- The first wait. -/
def await (s : σ) : Waiting σ β := ⟨s, [], 0, timeout, 0⟩

/-- Input within the deadline. -/
def receive (p : Waiting σ β) (a : Arrival β) : Waiting σ β :=
  let input := p.buffer ++ a.chunk
  match m.next p.state input with
  | none => { p with buffer := input, now := a.time }
  | some _ => {
      state := (m.settle p.state input).1
      buffer := (m.settle p.state input).2
      now := a.resumed
      deadline := a.resumed + timeout
      busy := p.busy + (a.resumed - a.time) }

/-- Something arrives. `none` where its times are not in order. -/
def arrive : Timed σ β → Arrival β → Option (Timed σ β)
  | .waiting p, a =>
    if p.now ≤ a.time ∧ a.time ≤ a.resumed then
      if p.deadline < a.time then some (.expired p) else some (.waiting (m.receive timeout p a))
    else none
  | .expired p, _ => some (.expired p)

variable {m : Reactor σ β} {timeout : Nat} {p : Waiting σ β} {a : Arrival β} {timed timed' : Timed σ β}

/-- What an arrival can do. -/
theorem arrive_cases (h : m.arrive timeout timed a = some timed') :
    (∃ p, timed = .expired p ∧ timed' = .expired p) ∨
      ∃ p, timed = .waiting p ∧ p.now ≤ a.time ∧ a.time ≤ a.resumed ∧
        ((p.deadline < a.time ∧ timed' = .expired p) ∨
          (a.time ≤ p.deadline ∧ timed' = .waiting (m.receive timeout p a))) := by
  cases timed with
  | expired p => exact Or.inl ⟨p, rfl, (Option.some.inj h).symm⟩
  | waiting p =>
      simp only [arrive, Option.ite_none_right_eq_some] at h
      obtain ⟨⟨hnow, hresumed⟩, h⟩ := h
      refine Or.inr ⟨p, rfl, hnow, hresumed, ?_⟩
      by_cases hlate : p.deadline < a.time
      · rw [if_pos hlate] at h
        exact Or.inl ⟨hlate, (Option.some.inj h).symm⟩
      · rw [if_neg hlate] at h
        exact Or.inr ⟨Nat.not_lt.mp hlate, (Option.some.inj h).symm⟩

/-- Past the deadline nothing is looked at any more. -/
theorem arrive_late (hnow : p.now ≤ a.time) (hresumed : a.time ≤ a.resumed) (hlate : p.deadline < a.time) :
    m.arrive timeout (.waiting p) a = some (.expired p) := by
  rw [arrive, if_pos ⟨hnow, hresumed⟩, if_pos hlate]

/-- **Input that completes no message buys no time.** -/
theorem arrive_incomplete (hnow : p.now ≤ a.time) (hresumed : a.time ≤ a.resumed) (hbefore : a.time ≤ p.deadline)
    (hnext : m.next p.state (p.buffer ++ a.chunk) = none) :
    m.arrive timeout (.waiting p) a = some (.waiting { p with buffer := p.buffer ++ a.chunk, now := a.time }) := by
  rw [arrive, if_pos ⟨hnow, hresumed⟩, if_neg (Nat.not_lt.mpr hbefore), receive, hnext]

/-- What input does to the clock: nothing, or it begins a new wait. -/
theorem receive_cases (m : Reactor σ β) (timeout : Nat) (p : Waiting σ β) (hresumed : a.time ≤ a.resumed) :
    ((m.receive timeout p a).state, (m.receive timeout p a).buffer) = m.feed (p.state, p.buffer) a.chunk ∧
    ((m.next p.state (p.buffer ++ a.chunk) = none ∧ (m.receive timeout p a).now = a.time ∧
        (m.receive timeout p a).deadline = p.deadline ∧ (m.receive timeout p a).busy = p.busy) ∨
      ((m.next p.state (p.buffer ++ a.chunk)).isSome = true ∧
        (m.receive timeout p a).deadline = (m.receive timeout p a).now + timeout ∧
        (m.receive timeout p a).now + p.busy = a.time + (m.receive timeout p a).busy)) := by
  cases hnext : m.next p.state (p.buffer ++ a.chunk) with
  | none =>
      simp only [receive, hnext]
      exact ⟨(settle_of_none hnext).symm, Or.inl ⟨trivial, trivial, trivial, trivial⟩⟩
  | some q =>
      simp only [receive, hnext]
      exact ⟨rfl, Or.inr ⟨rfl, trivial, by omega⟩⟩

/-- Where a message is complete, one at least is taken. -/
theorem settle_counts {P : σ → Nat → Prop}
    (hstep : ∀ s n input s' rest, P s n → m.next s input = some (s', rest) → P s' (n + 1)) {s : σ} {n : Nat}
    {input : List β} (h : P s n) (hsome : (m.next s input).isSome = true) :
    ∃ n', n < n' ∧ P (m.settle s input).1 n' := by
  obtain ⟨⟨s', rest⟩, hnext⟩ := Option.isSome_iff_exists.mp hsome
  rw [settle_of_some hnext]
  refine settle_keeps (P := fun s _ => ∃ n', n < n' ∧ P s n') ?_
    ⟨n + 1, Nat.lt_succ_self n, hstep s n input s' rest h hnext⟩
  rintro s input s' rest ⟨n', hlt, hP⟩ hnext
  exact ⟨n' + 1, Nat.lt_succ_of_lt hlt, hstep s n' input s' rest hP hnext⟩

/-- What is known of a wait when `arrivals` have been read. `P s n` says that `s` can be reached with `n` messages. -/
structure Within (m : Reactor σ β) (timeout : Nat) (P : σ → Nat → Prop) (s : σ) (arrivals : List (Arrival β))
    (p : Waiting σ β) : Prop where
  fed : (p.state, p.buffer) = m.feedAll (s, []) (arrivals.map (·.chunk))
  now : p.now ≤ p.deadline
  /-- One timeout for itself, one for each message, and the time for which the owner was busy. -/
  bought : ∃ n, P p.state n ∧ p.deadline ≤ (n + 1) * timeout + p.busy

theorem Within.receive {P : σ → Nat → Prop} {s : σ} {arrivals : List (Arrival β)}
    (hstep : ∀ s n input s' rest, P s n → m.next s input = some (s', rest) → P s' (n + 1))
    (h : Within m timeout P s arrivals p) (hbefore : a.time ≤ p.deadline) (hresumed : a.time ≤ a.resumed) :
    Within m timeout P s (arrivals ++ [a]) (m.receive timeout p a) := by
  obtain ⟨n, hP, hwithin⟩ := h.bought
  obtain ⟨hfeed, hcases⟩ := receive_cases m timeout p hresumed
  generalize m.receive timeout p a = p' at hfeed hcases ⊢
  have hfed : (p'.state, p'.buffer) = m.feedAll (s, []) ((arrivals ++ [a]).map (·.chunk)) := by
    rw [hfeed, h.fed]
    simp [feedAll]
  rcases hcases with ⟨hnone, hnow, hsame, hbusy⟩ | ⟨hsome, hnew, hbusy⟩
  · have hstate : p'.state = p.state := by
      rw [feed, settle_of_none hnone] at hfeed
      exact congrArg Prod.fst hfeed
    exact ⟨hfed, by omega, n, hstate ▸ hP, by omega⟩
  · obtain ⟨n', hlt, hP'⟩ := settle_counts hstep hP hsome
    have hstate : p'.state = (m.settle p.state (p.buffer ++ a.chunk)).1 := congrArg Prod.fst hfeed
    refine ⟨hfed, by omega, n', hstate ▸ hP', ?_⟩
    calc p'.deadline
        = p'.now + timeout := hnew
      _ ≤ (n + 1) * timeout + p'.busy + timeout := by omega
      _ = (n + 1 + 1) * timeout + p'.busy := by
          rw [Nat.add_mul (n + 1) 1 timeout, Nat.one_mul, Nat.add_right_comm]
      _ ≤ (n' + 1) * timeout + p'.busy :=
          Nat.add_le_add_right (Nat.mul_le_mul_right timeout (Nat.succ_le_succ hlt)) _

/-- **Time is bought with messages**, also by one whose time is over: it has then sent the messages that it had sent
    by its last deadline. -/
theorem arrive_within {P : σ → Nat → Prop} {s : σ} (hstart : P s 0)
    (hstep : ∀ s n input s' rest, P s n → m.next s input = some (s', rest) → P s' (n + 1))
    {arrivals : List (Arrival β)}
    (h : runEvents (m.arrive timeout) (.waiting (await timeout s)) arrivals = some timed) :
    (∀ p, timed = .waiting p → Within m timeout P s arrivals p) ∧
      ∀ p, timed = .expired p → ∃ read late, arrivals = read ++ late ∧ Within m timeout P s read p := by
  refine runEvents_induction (P := fun arrivals timed => (∀ p, timed = .waiting p → Within m timeout P s arrivals p) ∧
    ∀ p, timed = .expired p → ∃ read late, arrivals = read ++ late ∧ Within m timeout P s read p) ?_ ?_ h
  · refine ⟨fun p hwaiting => ?_, fun p hexpired => (nomatch hexpired)⟩
    obtain rfl := Timed.waiting.inj hwaiting
    exact ⟨rfl, Nat.zero_le _, 0, hstart, by simp [await]⟩
  · rintro arrivals timed a timed' ⟨hwaiting, hexpired⟩ harrive
    rcases arrive_cases harrive with ⟨p, rfl, rfl⟩ | ⟨p, rfl, -, hresumed, ⟨-, rfl⟩ | ⟨hbefore, rfl⟩⟩
    · refine ⟨fun p' hother => (nomatch hother), fun p' hsame => ?_⟩
      obtain ⟨read, late, rfl, hwithin⟩ := hexpired p' hsame
      exact ⟨read, late ++ [a], List.append_assoc _ _ _, hwithin⟩
    · refine ⟨fun p' hother => (nomatch hother), fun p' hsame => ?_⟩
      obtain rfl := Timed.expired.inj hsame
      exact ⟨arrivals, [a], rfl, hwaiting _ rfl⟩
    · refine ⟨fun p' hsame => ?_, fun p' hother => (nomatch hother)⟩
      obtain rfl := Timed.waiting.inj hsame
      exact (hwaiting p rfl).receive hstep hbefore hresumed

end Reactor

end Wire
