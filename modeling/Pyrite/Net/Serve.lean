import Pyrite.Wire.Events
import Pyrite.Wire.Host

set_option autoImplicit false

/-! # The accept loop

`crates/net/src/server.rs`: admission control and draining, as a machine whose events are everything that
can happen to `serve` and to its tasks, in any order. Between two awaits the loop runs on beside its tasks,
so each operation on the semaphore and on the `JoinSet` is an event of its own. What a connection does
while it is serviced is not looked at here: its task holds a permit, drops it when the connection is over,
and can be joined some time after that. Log lines are left out, and so are the addresses of the peers.

Permits are conserved in every reachable state, and everything else follows
(`admission_conserves_permits`). -/

namespace Pyrite.Net

open Wire

/-! ## The machine -/

/-- How the accept loop is bounded. That the grace period is over is an event. -/
structure ServeOptions where
  maxConnections : Nat

/-- What a completed run did. -/
structure ServeOutcome where
  accepted : Nat
  refused : Nat
  drained : Bool
  abandoned : Nat
  deriving DecidableEq, Repr

/-- A spawned `run_connection` that has not been joined. -/
inductive Task where
  /-- Services its connection, and holds a permit. -/
  | serving
  /-- Has dropped the permit, and has not ended yet. -/
  | released
  /-- Has ended, by a return or a panic, and can be joined. -/
  | finished
  deriving DecidableEq, Repr

/-- Where `serve` is. -/
inductive Phase where
  /-- At the `select!`. -/
  | listening
  /-- A socket was accepted, and finished tasks are being reaped. -/
  | reaping
  /-- About to ask for a permit for the socket. -/
  | acquiring
  /-- The socket has a permit and is about to get a task. -/
  | admitted
  /-- `drain` is reaping what has finished. -/
  | clearing
  /-- `drain` is under the timeout: `join_next` is pending. -/
  | waiting
  | returned (outcome : ServeOutcome)
  deriving DecidableEq, Repr

/-- The variables of `serve`. The counters are `u64` in the source; how long that makes no difference, is
    `counters_fit`. -/
structure Server where
  /-- Permits in the semaphore. -/
  available : Nat
  /-- The `JoinSet`. -/
  connections : List Task
  accepted : Nat
  refused : Nat
  phase : Phase
  deriving DecidableEq, Repr

/-- What can happen. -/
inductive Event where
  /-- `listener.accept()` gives a socket, or an error. -/
  | accept (ok : Bool)
  | shutdown
  /-- `try_join_next` or `join_next` gives the task at `i`. -/
  | joined (i : Nat)
  /-- `try_join_next` gives `None`. -/
  | noneFinished
  /-- `try_acquire_owned` -/
  | acquire
  | spawn
  /-- The grace period is over. -/
  | elapsed
  /-- The task at `i` drops its permit. -/
  | release (i : Nat)
  /-- The task at `i` ends. -/
  | finish (i : Nat)
  deriving DecidableEq, Repr

namespace Server

/-- `Semaphore::MAX_PERMITS` -/
def maxPermits (t : Target) : Nat := t.usizeMax / 8

/-- The start of `serve`. `Semaphore::new` panics above the maximum. -/
def start (t : Target) (options : ServeOptions) : Option Server :=
  if options.maxConnections > maxPermits t then none
  else some ⟨options.maxConnections, [], 0, 0, .listening⟩

/-- The end of `serve`. -/
def returns (s : Server) (drained : Bool) (abandoned : Nat) : Server :=
  { s with phase := .returned { accepted := s.accepted, refused := s.refused, drained, abandoned } }

/-- A task is taken out of the set. When it was the last that `drain` waited for, the `join_next` that
    follows gives `None` at once, so the future under the timeout is ready in the same poll. -/
def join (s : Server) (i : Nat) : Option Server :=
  let s := { s with connections := s.connections.eraseIdx i }
  match s.phase with
  | .reaping => some s
  | .clearing => some s
  | .waiting => if s.connections.isEmpty then some (s.returns true 0) else some s
  | _ => none

/-- Reaping is over: no task in the set can be joined. -/
def reaped (s : Server) : Option Server :=
  match s.phase with
  | .reaping => some { s with phase := .acquiring }
  | .clearing =>
    if s.connections.length = 0 then some (s.returns true 0)
    else some { s with phase := .waiting }
  | _ => none

/-- One event. `none` where it cannot happen. -/
def step (s : Server) : Event → Option Server
  | .accept ok =>
    if s.phase = .listening then some (if ok then { s with phase := .reaping } else s) else none
  | .shutdown => if s.phase = .listening then some { s with phase := .clearing } else none
  | .joined i => if s.connections[i]? = some .finished then s.join i else none
  | .noneFinished => if .finished ∈ s.connections then none else s.reaped
  | .acquire =>
    if s.phase = .acquiring then
      if s.available = 0 then some { s with refused := s.refused + 1, phase := .listening }
      else some { s with available := s.available - 1, phase := .admitted }
    else none
  | .spawn =>
    if s.phase = .admitted then
      some { s with
        accepted := s.accepted + 1
        connections := s.connections ++ [.serving]
        phase := .listening }
    else none
  | .elapsed => if s.phase = .waiting then some (s.returns false s.connections.length) else none
  | .release i =>
    if s.connections[i]? = some .serving then
      some { s with available := s.available + 1, connections := s.connections.set i .released }
    else none
  | .finish i =>
    if s.connections[i]? = some .released then
      some { s with connections := s.connections.set i .finished }
    else none

end Server

/-- `serve`, up to some point of a run in which `events` have happened. -/
def serve (t : Target) (options : ServeOptions) (events : List Event) : Option Server :=
  (Server.start t options).bind fun s => runEvents Server.step s events

/-! ## Moves -/

namespace Server

/-- The step function as a relation: every way in which one event changes the server. -/
inductive Moves (s : Server) : Event → Server → Prop where
  | socket (hphase : s.phase = .listening) : Moves s (.accept true) { s with phase := .reaping }
  | acceptFailed (hphase : s.phase = .listening) : Moves s (.accept false) s
  | shutdown (hphase : s.phase = .listening) : Moves s .shutdown { s with phase := .clearing }
  /-- A task is reaped, and there may be more. -/
  | joined {i : Nat} (htask : s.connections[i]? = some .finished)
      (hphase : s.phase = .reaping ∨ s.phase = .clearing ∨
        (s.phase = .waiting ∧ s.connections.eraseIdx i ≠ [])) :
      Moves s (.joined i) { s with connections := s.connections.eraseIdx i }
  | joinedLast {i : Nat} (htask : s.connections[i]? = some .finished) (hphase : s.phase = .waiting)
      (hlast : s.connections.eraseIdx i = []) :
      Moves s (.joined i) ({ s with connections := [] }.returns true 0)
  | reaped (hphase : s.phase = .reaping) : Moves s .noneFinished { s with phase := .acquiring }
  | nothingToDrain (hphase : s.phase = .clearing) (hempty : s.connections = []) :
      Moves s .noneFinished (s.returns true 0)
  | wait (hphase : s.phase = .clearing) (hsome : s.connections ≠ []) :
      Moves s .noneFinished { s with phase := .waiting }
  | refuse (hphase : s.phase = .acquiring) (hnone : s.available = 0) :
      Moves s .acquire { s with refused := s.refused + 1, phase := .listening }
  | grant {n : Nat} (hphase : s.phase = .acquiring) (hsome : s.available = n + 1) :
      Moves s .acquire { s with available := n, phase := .admitted }
  | spawn (hphase : s.phase = .admitted) :
      Moves s .spawn { s with
        accepted := s.accepted + 1
        connections := s.connections ++ [.serving]
        phase := .listening }
  | elapsed (hphase : s.phase = .waiting) : Moves s .elapsed (s.returns false s.connections.length)
  | release {i : Nat} (htask : s.connections[i]? = some .serving) :
      Moves s (.release i)
        { s with available := s.available + 1, connections := s.connections.set i .released }
  | finish {i : Nat} (htask : s.connections[i]? = some .released) :
      Moves s (.finish i) { s with connections := s.connections.set i .finished }

theorem moves_of_join {s s' : Server} {i : Nat} (htask : s.connections[i]? = some .finished)
    (h : s.join i = some s') : Moves s (.joined i) s' := by
  simp only [join] at h
  split at h
  · rename_i hphase
    obtain rfl := Option.some.inj h
    exact .joined htask (Or.inl hphase)
  · rename_i hphase
    obtain rfl := Option.some.inj h
    exact .joined htask (Or.inr (Or.inl hphase))
  · rename_i hphase
    split_ifs at h with hlast
    · rw [List.isEmpty_iff] at hlast
      rw [hlast] at h
      obtain rfl := Option.some.inj h
      exact .joinedLast htask hphase hlast
    · rw [List.isEmpty_iff] at hlast
      obtain rfl := Option.some.inj h
      exact .joined htask (Or.inr (Or.inr ⟨hphase, hlast⟩))
  · cases h

theorem moves_of_reaped {s s' : Server} (h : s.reaped = some s') : Moves s .noneFinished s' := by
  simp only [reaped] at h
  split at h
  · rename_i hphase
    obtain rfl := Option.some.inj h
    exact .reaped hphase
  · rename_i hphase
    split_ifs at h with hempty
    · obtain rfl := Option.some.inj h
      exact .nothingToDrain hphase (List.eq_nil_of_length_eq_zero hempty)
    · obtain rfl := Option.some.inj h
      exact .wait hphase (mt List.length_eq_zero_iff.mpr hempty)
  · cases h

/-- **What an event can do.** -/
theorem moves_of_step {s s' : Server} {e : Event} (h : s.step e = some s') : Moves s e s' := by
  cases e with
  | accept ok =>
      simp only [step, Option.ite_none_right_eq_some, Option.some.injEq] at h
      obtain ⟨hphase, rfl⟩ := h
      cases ok with
      | true => exact .socket hphase
      | false => exact .acceptFailed hphase
  | shutdown =>
      simp only [step, Option.ite_none_right_eq_some, Option.some.injEq] at h
      obtain ⟨hphase, rfl⟩ := h
      exact .shutdown hphase
  | joined i =>
      simp only [step, Option.ite_none_right_eq_some] at h
      exact moves_of_join h.1 h.2
  | noneFinished =>
      simp only [step, Option.ite_none_left_eq_some] at h
      exact moves_of_reaped h.2
  | acquire =>
      simp only [step, Option.ite_none_right_eq_some] at h
      obtain ⟨hphase, h⟩ := h
      cases havailable : s.available with
      | zero =>
          rw [if_pos havailable] at h
          obtain rfl := Option.some.inj h
          exact .refuse hphase havailable
      | succ n =>
          rw [if_neg (by omega), havailable] at h
          obtain rfl := Option.some.inj h
          exact .grant hphase havailable
  | spawn =>
      simp only [step, Option.ite_none_right_eq_some, Option.some.injEq] at h
      obtain ⟨hphase, rfl⟩ := h
      exact .spawn hphase
  | elapsed =>
      simp only [step, Option.ite_none_right_eq_some, Option.some.injEq] at h
      obtain ⟨hphase, rfl⟩ := h
      exact .elapsed hphase
  | release i =>
      simp only [step, Option.ite_none_right_eq_some, Option.some.injEq] at h
      obtain ⟨htask, rfl⟩ := h
      exact .release htask
  | finish i =>
      simp only [step, Option.ite_none_right_eq_some, Option.some.injEq] at h
      obtain ⟨htask, rfl⟩ := h
      exact .finish htask

end Server

/-! ## Permits and sockets -/

def Event.isJoined : Event → Bool
  | .joined _ => true
  | _ => false

namespace Server

/-- A socket has been accepted, and neither admitted nor refused yet. -/
def inHand (s : Server) : Nat :=
  match s.phase with
  | .reaping => 1
  | .acquiring => 1
  | .admitted => 1
  | _ => 0

/-- The admitted connections that hold a permit: one for each task that services its connection, and the
    one of a socket that is about to get a task. -/
def held (s : Server) : Nat :=
  s.connections.countP (· == .serving) + (if s.phase = .admitted then 1 else 0)

/-- **Permits are conserved** by every move. -/
theorem Moves.permits {s s' : Server} {e : Event} (h : Moves s e s') :
    s'.available + s'.held = s.available + s.held := by
  cases h with
  | socket hphase => simp [held, hphase]
  | acceptFailed _ => rfl
  | shutdown hphase => simp [held, hphase]
  | joined htask _ =>
      have hcount := countP_eraseIdx_add htask (· == .serving)
      rw [if_neg (by decide), Nat.add_zero] at hcount
      simp only [held, hcount]
  | joinedLast htask hphase hlast =>
      have hcount := countP_eraseIdx_add htask (· == .serving)
      rw [if_neg (by decide), Nat.add_zero, hlast] at hcount
      simp [held, returns, hphase, ← hcount]
  | reaped hphase => simp [held, hphase]
  | nothingToDrain hphase _ => simp [held, returns, hphase]
  | wait hphase _ => simp [held, hphase]
  | refuse hphase _ => simp [held, hphase]
  | grant hphase hsome =>
      -- one permit goes from the semaphore to the socket
      simp only [held, hphase, hsome, if_true, reduceCtorEq, if_false]
      omega
  | spawn hphase =>
      -- and from the socket to its task
      simp [held, hphase, List.countP_append]
  | elapsed hphase => simp [held, returns, hphase]
  | release htask =>
      have hcount := countP_set_add htask (· == .serving) .released
      rw [if_pos (by decide), if_neg (by decide)] at hcount
      simp only [held]
      omega
  | finish htask =>
      have hcount := countP_set_add htask (· == .serving) .finished
      rw [if_neg (by decide), if_neg (by decide)] at hcount
      simp only [held]
      omega

/-- A socket is in hand until it is counted, and nothing else is counted. -/
theorem Moves.sockets {s s' : Server} {e : Event} (h : Moves s e s') :
    s'.accepted + s'.refused + s'.inHand
      = s.accepted + s.refused + s.inHand + (if e = .accept true then 1 else 0) := by
  cases h with
  | socket hphase => simp [inHand, hphase]
  | acceptFailed _ => simp
  | shutdown hphase => simp [inHand, hphase]
  | joined _ _ => simp [inHand]
  | joinedLast _ hphase _ => simp [inHand, returns, hphase]
  | reaped hphase => simp [inHand, hphase]
  | nothingToDrain hphase _ => simp [inHand, returns, hphase]
  | wait hphase _ => simp [inHand, hphase]
  | refuse hphase _ => simp [inHand, hphase, Nat.add_assoc]
  | grant hphase _ => simp [inHand, hphase]
  | spawn hphase =>
      simp only [inHand, hphase, reduceCtorEq, if_false]
      omega
  | elapsed hphase => simp [inHand, returns, hphase]
  | release _ => simp [inHand]
  | finish _ => simp [inHand]

theorem Moves.accepted {s s' : Server} {e : Event} (h : Moves s e s') :
    s'.accepted = s.accepted + (if e = .spawn then 1 else 0) := by
  cases h <;> simp [returns]

/-- A task is in the set from when it is spawned until it is joined. -/
theorem Moves.tasks {s s' : Server} {e : Event} (h : Moves s e s') :
    s'.connections.length + (if e.isJoined then 1 else 0)
      = s.connections.length + (if e = .spawn then 1 else 0) := by
  cases h with
  | joined htask _ => simpa [Event.isJoined] using length_eraseIdx_add htask
  | joinedLast htask _ hlast =>
      have hlength := length_eraseIdx_add htask
      rw [hlast] at hlength
      simpa [returns, Event.isJoined] using hlength
  | _ => simp [returns, Event.isJoined]

/-- The drain waits for something, and what it returns is about the tasks that are left. -/
structure Settles (s : Server) : Prop where
  waiting : s.phase = .waiting → s.connections ≠ []
  returned : ∀ outcome, s.phase = .returned outcome → outcome.accepted = s.accepted ∧
    outcome.refused = s.refused ∧ outcome.abandoned = s.connections.length ∧
    (outcome.drained = true ↔ s.connections = [])

theorem settles_returns {s : Server} {drained : Bool} (h : drained = true ↔ s.connections = []) :
    (s.returns drained s.connections.length).Settles := by
  refine ⟨fun hphase => by simp [returns] at hphase, fun outcome hphase => ?_⟩
  obtain rfl := Phase.returned.inj hphase
  exact ⟨rfl, rfl, rfl, h⟩

/-- A phase in which nothing is promised. -/
theorem settles_of_phase {s : Server} (hwaiting : s.phase ≠ .waiting)
    (hreturned : ∀ outcome, s.phase ≠ .returned outcome) : s.Settles :=
  ⟨fun hphase => absurd hphase hwaiting, fun outcome hphase => absurd hphase (hreturned outcome)⟩

/-- Tasks move on in place. -/
theorem Settles.set {s : Server} (h : s.Settles) (available i : Nat) (task : Task) :
    ({ s with available, connections := s.connections.set i task }).Settles := by
  have hempty : s.connections.set i task = [] ↔ s.connections = [] := by
    rw [← List.length_eq_zero_iff, List.length_set, List.length_eq_zero_iff]
  refine ⟨fun hphase => mt hempty.mp (h.waiting hphase), fun outcome hphase => ?_⟩
  obtain ⟨haccepted, hrefused, habandoned, hdrained⟩ := h.returned outcome hphase
  exact ⟨haccepted, hrefused, by rw [habandoned, List.length_set], hdrained.trans hempty.symm⟩

theorem Moves.settles {s s' : Server} {e : Event} (hmoves : Moves s e s') (h : s.Settles) : s'.Settles := by
  cases hmoves with
  | socket _ => exact settles_of_phase (by simp) (by simp)
  | acceptFailed _ => exact h
  | shutdown _ => exact settles_of_phase (by simp) (by simp)
  | joined _ hphase =>
      rcases hphase with hphase | hphase | ⟨hphase, hmore⟩
      · exact settles_of_phase (by simp [hphase]) (by simp [hphase])
      · exact settles_of_phase (by simp [hphase]) (by simp [hphase])
      · exact ⟨fun _ => hmore, fun outcome hreturned => by simp [hphase] at hreturned⟩
  | joinedLast _ _ _ => exact settles_returns (by simp)
  | reaped _ => exact settles_of_phase (by simp) (by simp)
  | nothingToDrain _ hempty =>
      have hsettles : (s.returns true s.connections.length).Settles := settles_returns (by simp [hempty])
      rwa [hempty] at hsettles
  | wait _ hsome => exact ⟨fun _ => hsome, by simp⟩
  | refuse _ _ => exact settles_of_phase (by simp) (by simp)
  | grant _ _ => exact settles_of_phase (by simp) (by simp)
  | spawn _ => exact settles_of_phase (by simp) (by simp)
  | elapsed hphase => exact settles_returns (by simp [h.waiting hphase])
  | release _ => exact h.set _ _ _
  | finish _ => exact h.set _ _ _

end Server

/-! ## Whole runs -/

/-- What holds after every run, for all that has happened. -/
structure Balanced (max : Nat) (events : List Event) (s : Server) : Prop where
  permits : s.available + s.held = max
  sockets : events.count (.accept true) = s.accepted + s.refused + s.inHand
  spawned : events.count .spawn = s.accepted
  tasks : s.connections.length + events.countP Event.isJoined = events.count .spawn
  settles : s.Settles

theorem Balanced.step {max : Nat} {events : List Event} {s s' : Server} {e : Event}
    (h : Balanced max events s) (hmoves : s.Moves e s') : Balanced max (events ++ [e]) s' := by
  have hsockets := hmoves.sockets
  have haccepted := hmoves.accepted
  have htasks := hmoves.tasks
  have hcount : ∀ e' : Event, (events ++ [e]).count e' = events.count e' + if e = e' then 1 else 0 := by
    intro e'
    simp only [List.count_append, List.count_singleton, beq_iff_eq]
  have hjoined : (events ++ [e]).countP Event.isJoined
      = events.countP Event.isJoined + if e.isJoined then 1 else 0 := by
    simp [List.countP_append, List.countP_singleton]
  refine ⟨hmoves.permits.trans h.permits, ?_, ?_, ?_, hmoves.settles h.settles⟩
  · rw [hcount, h.sockets, hsockets]
  · rw [hcount, h.spawned, haccepted]
  · rw [hcount, hjoined, ← h.tasks]
    omega

theorem serve_balanced {t : Target} {options : ServeOptions} {events : List Event} {s : Server}
    (h : serve t options events = some s) : Balanced options.maxConnections events s := by
  obtain ⟨s₀, hstart, hrun⟩ := Option.bind_eq_some_iff.mp h
  simp only [Server.start, Option.ite_none_left_eq_some, Option.some.injEq] at hstart
  obtain ⟨-, rfl⟩ := hstart
  refine runEvents_induction (P := Balanced options.maxConnections) ?_ ?_ hrun
  · exact ⟨rfl, rfl, rfl, rfl, Server.settles_of_phase (by simp) (by simp)⟩
  · intro events s e s' hbalanced hstep
    exact hbalanced.step (Server.moves_of_step hstep)

/-- The counters are what `u64` counters would be, until 2^64 sockets have been accepted. -/
theorem counters_fit {t : Target} {options : ServeOptions} {events : List Event} {s : Server}
    (h : serve t options events = some s) (hsockets : events.count (.accept true) < 2 ^ 64) :
    (UInt64.ofNat s.accepted).toNat = s.accepted ∧ (UInt64.ofNat s.refused).toNat = s.refused := by
  have hcounted := (serve_balanced h).sockets
  exact ⟨UInt64.toNat_ofNat_of_lt' (by rw [UInt64.size]; omega), UInt64.toNat_ofNat_of_lt' (by rw [UInt64.size]; omega)⟩

/-- **Admission control conserves permits.** In every state that `serve` can reach, by any interleaving of
    accepts, tasks and the shutdown: the permits in the semaphore and those held by admitted connections are
    the maximum, so no more connections than that are serviced; every accepted socket is counted once, as
    accepted or as refused, or is still in hand; every failed accept leaves everything as it was; a socket is
    refused only while the maximum of permits is held; as many tasks were spawned as sockets were accepted;
    and the drain is reported complete exactly if nothing was abandoned. -/
theorem admission_conserves_permits {t : Target} {options : ServeOptions} {events : List Event} {s : Server}
    (h : serve t options events = some s) :
    s.available + s.held = options.maxConnections ∧
    s.connections.countP (· == .serving) ≤ options.maxConnections ∧
    events.count (.accept true) = s.accepted + s.refused + s.inHand ∧
    (∀ s', s.step (.accept false) = some s' → s' = s) ∧
    (∀ e s', s.step e = some s' → s'.refused ≠ s.refused →
      s.held = options.maxConnections ∧ s.inHand = 1 ∧ s'.inHand = 0 ∧
      s'.refused = s.refused + 1 ∧ s'.accepted = s.accepted) ∧
    events.count .spawn = s.accepted ∧
    s.connections.length + events.countP Event.isJoined = s.accepted ∧
    (∀ outcome, s.phase = .returned outcome →
      (outcome.drained = true ↔ outcome.abandoned = 0) ∧ outcome.abandoned = s.connections.length ∧
      outcome.accepted = s.accepted ∧ outcome.refused = s.refused) := by
  have hbalanced := serve_balanced h
  have hheld := hbalanced.permits
  refine ⟨hheld, ?_, hbalanced.sockets, ?_, ?_, hbalanced.spawned, ?_, ?_⟩
  · exact le_trans (Nat.le_add_right _ _) (le_trans (Nat.le_add_left _ _) hheld.le)
  · intro s' hstep
    cases Server.moves_of_step hstep with
    | acceptFailed _ => rfl
  · intro e s' hstep hrefused
    cases Server.moves_of_step hstep with
    | refuse hphase hnone =>
        rw [hnone, Nat.zero_add] at hheld
        exact ⟨hheld, by simp [Server.inHand, hphase], rfl, rfl, rfl⟩
    | _ => exact absurd rfl hrefused
  · rw [hbalanced.tasks, hbalanced.spawned]
  · intro outcome hphase
    obtain ⟨haccepted, hrefused, habandoned, hdrained⟩ := hbalanced.settles.returned outcome hphase
    refine ⟨?_, habandoned, haccepted, hrefused⟩
    rw [hdrained, habandoned, List.length_eq_zero_iff]

/-- One connection is admitted, a second is refused while it holds the only permit, and it is abandoned at
    the shutdown. -/
def refusedAndAbandoned : List Event :=
  [.accept true, .noneFinished, .acquire, .spawn, .accept true, .noneFinished, .acquire, .accept false,
    .shutdown, .noneFinished, .elapsed]

theorem admission_conserves_permits_one :
    ∃ s, serve .bits64 ⟨1⟩ refusedAndAbandoned = some s ∧ s.phase = .returned ⟨1, 1, false, 1⟩ ∧
      s.available + s.held = 1 := by
  have hserve : serve .bits64 ⟨1⟩ refusedAndAbandoned
      = some ⟨0, [.serving], 1, 1, .returned ⟨1, 1, false, 1⟩⟩ := by decide +kernel
  exact ⟨_, hserve, rfl, (admission_conserves_permits hserve).1⟩

end Pyrite.Net
