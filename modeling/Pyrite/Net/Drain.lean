import Pyrite.Net.Serve

set_option autoImplicit false

/-! # Shutting down

What follows a shutdown: nobody is admitted any more, every run ends within a number of events that is known
at the shutdown, and what is returned tells exactly whether the grace period ran out. The bound comes from a
rank that every event lowers, whichever event it is: each task is to drop its permit, to end and to be
joined, and the drain is to clear, to wait and to return.

No task has to do its part for that. At every point of every run, the loop can come to an end by itself, on
the shutdown and the timer alone (`shutdown_completes`). -/

namespace Pyrite.Net

open Wire

/-! ## The rank -/

/-- The events that a task is still to see. -/
def Task.rank : Task → Nat
  | .serving => 3
  | .released => 2
  | .finished => 1

/-- The events that `drain` is still to see, besides the joins. -/
def Phase.rank : Phase → Nat
  | .clearing => 2
  | .waiting => 1
  | _ => 0

namespace Server

def rank (s : Server) : Nat := (s.connections.map Task.rank).sum + s.phase.rank

/-- The shutdown has been heeded. -/
def Closing (s : Server) : Prop :=
  s.phase = .clearing ∨ s.phase = .waiting ∨ ∃ outcome, s.phase = .returned outcome

theorem not_closing {s : Server} {phase : Phase} (hphase : s.phase = phase)
    (h : phase = .listening ∨ phase = .reaping ∨ phase = .acquiring ∨ phase = .admitted) : ¬ s.Closing := by
  rintro (hclosing | hclosing | ⟨outcome, hclosing⟩) <;>
    rcases h with rfl | rfl | rfl | rfl <;> rw [hphase] at hclosing <;> cases hclosing

/-- What an event does after the shutdown. -/
structure Lowers (s s' : Server) : Prop where
  closing : s'.Closing
  accepted : s'.accepted = s.accepted
  refused : s'.refused = s.refused
  rank : s'.rank < s.rank

theorem closing_returns (s : Server) (drained : Bool) (abandoned : Nat) : (s.returns drained abandoned).Closing :=
  Or.inr (Or.inr ⟨_, rfl⟩)

/-- After the shutdown nobody is admitted or refused, and **every event lowers the rank**. -/
theorem Moves.lowers {s s' : Server} {e : Event} (hmoves : Moves s e s') (h : s.Closing) : Lowers s s' := by
  cases hmoves with
  | socket hphase => exact absurd h (not_closing hphase (by simp))
  | acceptFailed hphase => exact absurd h (not_closing hphase (by simp))
  | shutdown hphase => exact absurd h (not_closing hphase (by simp))
  | joined htask hphase =>
      have hsum := sum_map_eraseIdx_add htask Task.rank
      refine ⟨h, rfl, rfl, ?_⟩
      simp only [Server.rank, Task.rank] at hsum ⊢
      omega
  | joinedLast htask hphase hlast =>
      have hsum := sum_map_eraseIdx_add htask Task.rank
      refine ⟨closing_returns _ _ _, rfl, rfl, ?_⟩
      simp only [Server.rank, returns, Phase.rank, hphase, Task.rank, hlast, List.map_nil, List.sum_nil] at hsum ⊢
      omega
  | reaped hphase => exact absurd h (not_closing hphase (by simp))
  | nothingToDrain hphase hempty =>
      refine ⟨closing_returns _ _ _, rfl, rfl, ?_⟩
      simp [Server.rank, returns, Phase.rank, hphase]
  | wait hphase hsome =>
      refine ⟨Or.inr (Or.inl rfl), rfl, rfl, ?_⟩
      simp [Server.rank, Phase.rank, hphase]
  | refuse hphase hnone => exact absurd h (not_closing hphase (by simp))
  | grant hphase hsome => exact absurd h (not_closing hphase (by simp))
  | spawn hphase => exact absurd h (not_closing hphase (by simp))
  | elapsed hphase =>
      refine ⟨closing_returns _ _ _, rfl, rfl, ?_⟩
      simp [Server.rank, returns, Phase.rank, hphase]
  | release htask =>
      have hsum := sum_map_set_add htask Task.rank .released
      refine ⟨h, rfl, rfl, ?_⟩
      simp only [Server.rank, Task.rank] at hsum ⊢
      omega
  | finish htask =>
      have hsum := sum_map_set_add htask Task.rank .finished
      refine ⟨h, rfl, rfl, ?_⟩
      simp only [Server.rank, Task.rank] at hsum ⊢
      omega

/-- A task sees at most three events. -/
theorem sum_rank_le (tasks : List Task) : (tasks.map Task.rank).sum ≤ 3 * tasks.length := by
  induction tasks with
  | nil => simp
  | cons task tasks ih =>
      have htask : task.rank ≤ 3 := by cases task <;> decide
      simp only [List.map_cons, List.sum_cons, List.length_cons]
      omega

/-! ## What is returned -/

/-- The state after a shutdown at `s₀`, when `events` have happened since. -/
structure Drained (s₀ : Server) (events : List Event) (s : Server) : Prop where
  closing : s.Closing
  accepted : s.accepted = s₀.accepted
  refused : s.refused = s₀.refused
  joined : s.connections.length + events.countP Event.isJoined = s₀.connections.length
  /-- While the drain goes on, the grace period does. -/
  inTime : (∀ outcome, s.phase ≠ .returned outcome) → .elapsed ∉ events
  /-- And what it returns tells whether it still did at the end. -/
  told : ∀ outcome, s.phase = .returned outcome → (outcome.drained = true ↔ .elapsed ∉ events)

theorem Moves.of_returned {s s' : Server} {e : Event} {outcome : ServeOutcome} (hmoves : Moves s e s')
    (h : s.phase = .returned outcome) : s'.phase = .returned outcome ∧ e ≠ .elapsed := by
  cases hmoves with
  | release htask => exact ⟨h, by simp⟩
  | finish htask => exact ⟨h, by simp⟩
  | joined htask hphase => simp [h] at hphase
  | _ => simp_all

theorem Moves.of_elapsed {s s' : Server} (hmoves : Moves s .elapsed s') :
    s' = s.returns false s.connections.length := by
  cases hmoves with
  | elapsed hphase => rfl

/-- Only the timer makes the drain give up. -/
theorem Moves.returns_true {s s' : Server} {e : Event} {outcome : ServeOutcome} (hmoves : Moves s e s')
    (h : ∀ outcome, s.phase ≠ .returned outcome) (he : e ≠ .elapsed) (h' : s'.phase = .returned outcome) :
    outcome.drained = true := by
  cases hmoves with
  | joinedLast htask hphase hlast =>
      obtain rfl := Phase.returned.inj h'
      rfl
  | nothingToDrain hphase hempty =>
      obtain rfl := Phase.returned.inj h'
      rfl
  | elapsed hphase => exact absurd rfl he
  | joined htask hphase => exact absurd h' (h outcome)
  | release htask => exact absurd h' (h outcome)
  | finish htask => exact absurd h' (h outcome)
  | acceptFailed hphase => exact absurd h' (h outcome)
  | _ => cases h'

theorem Drained.step {s₀ s s' : Server} {events : List Event} {e : Event} (h : Drained s₀ events s)
    (hmoves : Moves s e s') : Drained s₀ (events ++ [e]) s' := by
  have hlowers := hmoves.lowers h.closing
  have htasks := hmoves.tasks
  have hspawn : e ≠ .spawn := by
    rintro rfl
    have haccepted := hmoves.accepted
    rw [hlowers.accepted, if_pos rfl] at haccepted
    omega
  rw [if_neg hspawn, Nat.add_zero] at htasks
  refine ⟨hlowers.closing, hlowers.accepted.trans h.accepted, hlowers.refused.trans h.refused, ?_, ?_, ?_⟩
  · have hjoined := h.joined
    rw [List.countP_append, List.countP_singleton]
    omega
  · intro hrunning
    have hbefore : ∀ outcome, s.phase ≠ .returned outcome := by
      intro outcome hreturned
      exact hrunning outcome (hmoves.of_returned hreturned).1
    have he : e ≠ .elapsed := by
      rintro rfl
      rw [hmoves.of_elapsed] at hrunning
      exact hrunning _ rfl
    simp [h.inTime hbefore, he.symm]
  · intro outcome houtcome
    by_cases hbefore : ∃ outcome, s.phase = .returned outcome
    · -- it had returned already
      obtain ⟨outcome', hreturned⟩ := hbefore
      obtain ⟨hsame, he⟩ := hmoves.of_returned hreturned
      rw [hsame] at houtcome
      obtain rfl := Phase.returned.inj houtcome
      simp [h.told _ hreturned, he.symm]
    · have hrunning : ∀ outcome, s.phase ≠ .returned outcome := not_exists.mp hbefore
      have hin := h.inTime hrunning
      by_cases he : e = .elapsed
      · subst he
        rw [hmoves.of_elapsed] at houtcome
        obtain rfl := Phase.returned.inj houtcome
        simp
      · simp [hmoves.returns_true hrunning he houtcome, hin, Ne.symm he]

end Server

/-! ## No help is needed -/

/-- What the loop does by itself, with the shutdown and the timer: neither a peer nor a task decides it. -/
def Event.ofLoop : Event → Bool
  | .accept _ => false
  | .release _ => false
  | .finish _ => false
  | _ => true

namespace Server

/-- `s` can come to `s'` by itself. -/
def ByItself (s s' : Server) : Prop :=
  ∃ events, (∀ e ∈ events, e.ofLoop = true) ∧ runEvents step s events = some s'

theorem ByItself.trans {s₀ s₁ s₂ : Server} (h₁ : ByItself s₀ s₁) (h₂ : ByItself s₁ s₂) : ByItself s₀ s₂ := by
  obtain ⟨first, hfirst, hrun₁⟩ := h₁
  obtain ⟨second, hsecond, hrun₂⟩ := h₂
  refine ⟨first ++ second, ?_, runEvents_trans hrun₁ hrun₂⟩
  intro e he
  rcases List.mem_append.mp he with he | he
  · exact hfirst e he
  · exact hsecond e he

theorem byItself_of_step {s s' : Server} {e : Event} (he : e.ofLoop = true) (h : s.step e = some s') :
    ByItself s s' := by
  refine ⟨[e], by simpa using he, ?_⟩
  rw [runEvents_singleton, h]

/-- The reaping loop comes to its end. -/
theorem reaps (s : Server) (hphase : s.phase = .reaping ∨ s.phase = .clearing) :
    ∃ tasks, ByItself s { s with connections := tasks } ∧ .finished ∉ tasks := by
  -- on the number of tasks: each that has finished is taken out
  induction hn : s.connections.length generalizing s with
  | zero =>
      have hempty : s.connections = [] := List.length_eq_zero_iff.mp hn
      exact ⟨s.connections, ⟨[], by simp, rfl⟩, by simp [hempty]⟩
  | succ n ih =>
      by_cases hfinished : .finished ∈ s.connections
      · obtain ⟨i, hi⟩ := List.mem_iff_getElem?.mp hfinished
        have hlength := length_eraseIdx_add hi
        have hstep : s.step (.joined i) = some { s with connections := s.connections.eraseIdx i } := by
          rcases hphase with hphase | hphase <;> simp [step, hi, join, hphase]
        obtain ⟨tasks, hreaped, hnone⟩ := ih { s with connections := s.connections.eraseIdx i } hphase (by
          simp only
          omega)
        exact ⟨tasks, (byItself_of_step rfl hstep).trans hreaped, hnone⟩
      · exact ⟨s.connections, ⟨[], by simp, rfl⟩, hfinished⟩

/-- `s` can return by itself. -/
def CanReturn (s : Server) : Prop := ∃ s' outcome, ByItself s s' ∧ s'.phase = .returned outcome

theorem CanReturn.before {s s' : Server} (h : CanReturn s') (hbefore : ByItself s s') : CanReturn s := by
  obtain ⟨s'', outcome, hafter, hreturned⟩ := h
  exact ⟨s'', outcome, hbefore.trans hafter, hreturned⟩

theorem canReturn_waiting {s : Server} (h : s.phase = .waiting) : CanReturn s :=
  ⟨_, _, byItself_of_step (e := .elapsed) rfl (if_pos h), rfl⟩

theorem canReturn_clearing {s : Server} (h : s.phase = .clearing) : CanReturn s := by
  obtain ⟨tasks, hreaped, hnone⟩ := reaps s (Or.inr h)
  by_cases hempty : tasks = []
  · have hstep : { s with connections := tasks }.step .noneFinished
        = some ({ s with connections := tasks }.returns true 0) := by
      simp [step, reaped, h, hempty]
    exact ⟨_, _, hreaped.trans (byItself_of_step rfl hstep), rfl⟩
  · have hstep : { s with connections := tasks }.step .noneFinished
        = some { s with connections := tasks, phase := .waiting } := by
      simp [step, reaped, h, hempty, hnone]
    have hwaiting : CanReturn { s with connections := tasks, phase := .waiting } := canReturn_waiting rfl
    exact hwaiting.before (hreaped.trans (byItself_of_step rfl hstep))

theorem canReturn_listening {s : Server} (h : s.phase = .listening) : CanReturn s := by
  have hclearing : CanReturn { s with phase := .clearing } := canReturn_clearing rfl
  exact hclearing.before (byItself_of_step (e := .shutdown) rfl (if_pos h))

theorem canReturn_admitted {s : Server} (h : s.phase = .admitted) : CanReturn s := by
  have hlistening : CanReturn { s with
      accepted := s.accepted + 1
      connections := s.connections ++ [.serving]
      phase := .listening } := canReturn_listening rfl
  exact hlistening.before (byItself_of_step (e := .spawn) rfl (if_pos h))

theorem canReturn_acquiring {s : Server} (h : s.phase = .acquiring) : CanReturn s := by
  by_cases havailable : s.available = 0
  · have hlistening : CanReturn { s with refused := s.refused + 1, phase := .listening } :=
      canReturn_listening rfl
    have hstep : s.step .acquire = some { s with refused := s.refused + 1, phase := .listening } := by
      simp [step, h, havailable]
    exact hlistening.before (byItself_of_step rfl hstep)
  · have hadmitted : CanReturn { s with available := s.available - 1, phase := .admitted } :=
      canReturn_admitted rfl
    have hstep : s.step .acquire = some { s with available := s.available - 1, phase := .admitted } := by
      simp [step, h, havailable]
    exact hadmitted.before (byItself_of_step rfl hstep)

/-- At every point the loop can come to its end, whatever the tasks do. -/
theorem canReturn (s : Server) : CanReturn s := by
  cases h : s.phase with
  | listening => exact canReturn_listening h
  | reaping =>
      obtain ⟨tasks, hreaped, hnone⟩ := reaps s (Or.inl h)
      have hstep : { s with connections := tasks }.step .noneFinished
          = some { s with connections := tasks, phase := .acquiring } := by
        simp [step, reaped, h, hnone]
      have hacquiring : CanReturn { s with connections := tasks, phase := .acquiring } := canReturn_acquiring rfl
      exact hacquiring.before (hreaped.trans (byItself_of_step rfl hstep))
  | acquiring => exact canReturn_acquiring h
  | admitted => exact canReturn_admitted h
  | clearing => exact canReturn_clearing h
  | waiting => exact canReturn_waiting h
  | returned outcome => exact ⟨s, outcome, ⟨[], by simp, rfl⟩, h⟩

/-- What has not returned can always go on. -/
theorem returned_of_stuck {s : Server} (hstuck : ∀ e, s.step e = none) :
    ∃ outcome, s.phase = .returned outcome := by
  obtain ⟨s', outcome, ⟨events, -, hrun⟩, hreturned⟩ := canReturn s
  cases events with
  | nil =>
      obtain rfl := Option.some.inj hrun
      exact ⟨outcome, hreturned⟩
  | cons e events =>
      rw [← List.singleton_append, runEvents_append, runEvents_singleton, hstuck] at hrun
      cases hrun

end Server

/-! ## Shutdown -/

/-- **A shutdown completes.** At every point of every run, `serve` can come to its end without anything that a
    peer or a task does. From a shutdown on, in every run: at most three events for each task that is left and
    two more can happen, and a run that cannot go on has returned; nobody is admitted or refused any more;
    and the drain is reported complete exactly if the grace period has not run out, with every permit back, and
    otherwise what is reported as abandoned are the tasks that were not joined. -/
theorem shutdown_completes {t : Target} {options : ServeOptions} {events : List Event} {s : Server}
    (h : serve t options events = some s) :
    (∃ more s' outcome, (∀ e ∈ more, e.ofLoop = true) ∧ runEvents Server.step s more = some s' ∧
      s'.phase = .returned outcome) ∧
    ∀ s₀, s.step .shutdown = some s₀ → ∀ after s', runEvents Server.step s₀ after = some s' →
      after.length ≤ 3 * s.connections.length + 2 ∧
      ((∀ e, s'.step e = none) → ∃ outcome, s'.phase = .returned outcome) ∧
      s'.accepted = s.accepted ∧ s'.refused = s.refused ∧
      ∀ outcome, s'.phase = .returned outcome →
        outcome.accepted = s.accepted ∧ outcome.refused = s.refused ∧
        (outcome.drained = true ↔ .elapsed ∉ after) ∧
        (outcome.drained = true → s'.available = options.maxConnections) ∧
        outcome.abandoned + after.countP Event.isJoined = s.connections.length := by
  obtain ⟨s', outcome, ⟨more, hloop, hmore⟩, hreturned⟩ := Server.canReturn s
  refine ⟨⟨more, s', outcome, hloop, hmore, hreturned⟩, ?_⟩
  intro s₀ hshutdown after s' hafter
  obtain ⟨hphase, rfl⟩ : s.phase = .listening ∧ { s with phase := .clearing } = s₀ := by
    simpa [Server.step] using hshutdown
  have hclosing : Server.Closing { s with phase := .clearing } := Or.inl rfl
  have hserve : serve t options (events ++ .shutdown :: after) = some s' := by
    obtain ⟨start, hstart, hrun⟩ := Option.bind_eq_some_iff.mp h
    rw [serve, hstart]
    refine runEvents_trans hrun ?_
    rw [← List.singleton_append]
    exact runEvents_trans ((runEvents_singleton _ _ _).trans hshutdown) hafter
  have hbalanced := serve_balanced hserve
  obtain ⟨-, hlength⟩ := runEvents_length_le (P := Server.Closing) Server.rank
    (fun s e s' hs hstep => by
      have hlowers := (Server.moves_of_step hstep).lowers hs
      exact ⟨hlowers.closing, hlowers.rank⟩) hclosing hafter
  have hdrained : Server.Drained { s with phase := .clearing } after s' := by
    refine runEvents_induction (P := Server.Drained { s with phase := .clearing }) ?_ ?_ hafter
    · exact ⟨hclosing, rfl, rfl, rfl, by simp, by simp⟩
    · intro events s₁ e s₂ hdrained hstep
      exact hdrained.step (Server.moves_of_step hstep)
  refine ⟨?_, Server.returned_of_stuck, hdrained.accepted, hdrained.refused, ?_⟩
  · have hsum := Server.sum_rank_le s.connections
    simp only [Server.rank, Phase.rank] at hlength
    omega
  · intro outcome hreturned
    obtain ⟨haccepted, hrefused, habandoned, hempty⟩ := hbalanced.settles.returned outcome hreturned
    refine ⟨haccepted.trans hdrained.accepted, hrefused.trans hdrained.refused, hdrained.told outcome hreturned,
      ?_, ?_⟩
    · intro htrue
      have hpermits := hbalanced.permits
      simpa [Server.held, hempty.mp htrue, hreturned] using hpermits
    · rw [habandoned]
      exact hdrained.joined

/-- Two connections are serviced at the shutdown. One of them ends in time. -/
theorem shutdown_completes_two :
    ∃ s s₀ s', serve .bits64 ⟨2⟩ [.accept true, .noneFinished, .acquire, .spawn, .accept true, .noneFinished,
        .acquire, .spawn] = some s ∧
      s.step .shutdown = some s₀ ∧
      runEvents Server.step s₀ [.release 0, .noneFinished, .finish 0, .joined 0, .elapsed] = some s' ∧
      s'.phase = .returned ⟨2, 0, false, 1⟩ ∧ s'.accepted = s.accepted := by
  have hserve : serve .bits64 ⟨2⟩ [.accept true, .noneFinished, .acquire, .spawn, .accept true, .noneFinished,
      .acquire, .spawn] = some ⟨0, [.serving, .serving], 2, 0, .listening⟩ := by decide +kernel
  have hafter : runEvents Server.step ⟨0, [.serving, .serving], 2, 0, .clearing⟩
      [.release 0, .noneFinished, .finish 0, .joined 0, .elapsed]
        = some ⟨1, [.serving], 2, 0, .returned ⟨2, 0, false, 1⟩⟩ := by decide +kernel
  exact ⟨_, _, _, hserve, rfl, hafter, rfl, ((shutdown_completes hserve).2 _ rfl _ _ hafter).2.2.1⟩

end Pyrite.Net
