import Pyrite.Net.Transport
import Pyrite.Wire.Deadline

set_option autoImplicit false

/-! # Slow peers

`timeout(read_timeout, framed.next())` with a clock. The timer is set when the connection begins to wait for a
frame, so bytes that do not complete one do not prolong the wait. When it has elapsed, `run` returns, and what
arrives later is not read. Sending is not under the timer: for how long a peer keeps the connection busy by not
reading is counted apart.

A peer can hold on to a connection that waits for it for three read timeouts, and for one more with every
`LoginStart` (`slow_peers_dropped`). -/

namespace Pyrite.Net

open Wire Protocol

variable {env : Env} {config : ServerConfig}

/-- `Connection::run` under the clock, when `arrivals` have happened. -/
def Connection.awaits (env : Env) (config : ServerConfig) (readTimeout : Nat) (arrivals : List (Arrival UInt8)) :
    Option (Timed Service UInt8) :=
  runEvents ((serverReactor env).arrive readTimeout)
    (.waiting (Reactor.await readTimeout (.waiting (.new config)))) arrivals

/-- What `run` has returned, if it has. -/
def Connection.returned : Timed Service UInt8 → Option (Outcome NetError Connection Unit)
  | .waiting p =>
    match p.state with
    | .waiting _ => none
    | .ended outcome => some outcome
  | .expired p => some (finish .elapsed (p.state, p.buffer))

/-! ## How many frames there can be -/

/-- How often a `LoginStart` was handled in the login state. -/
def loginStarts (history : List (Connection × RawPacket)) : Nat :=
  history.countP fun entry => entry.1.state.current == .login && entry.2.id == Packet.id LoginStart

theorem loginStarts_concat (history : List (Connection × RawPacket)) (s : Connection) (frame : RawPacket) :
    loginStarts (history ++ [(s, frame)]) = loginStarts history +
      if s.state.current = .login ∧ frame.id = Packet.id LoginStart then 1 else 0 := by
  simp [loginStarts, List.countP_append, List.countP_singleton]

/-- The most frames that lead to a state, without `LoginStart`s. -/
def ConnectionState.frames (state : ConnectionState) : Nat :=
  match state.current with
  | .handshaking => 0
  | .status => if state.statusRequestSeen then 2 else 1
  | .login => 1
  | _ => 2

/-- What is known of the frames that a live connection has handled. -/
structure Few (history : List (Connection × RawPacket)) (s : Connection) : Prop where
  length : history.length ≤ s.state.frames + loginStarts history
  none : s.state.current = .handshaking ∨ s.state.current = .status → loginStarts history = 0

theorem Few.step {history : List (Connection × RawPacket)} {s s' : Connection} {frame : RawPacket}
    (h : Few history s) (hstep : Step env s frame true s') : Few (history ++ [(s, frame)]) s' := by
  obtain ⟨hlength, hnone⟩ := h
  generalize hlive : true = live at hstep
  cases hstep with
  | handshake handshake hstate hid hdecode heffect =>
      have hstarts := hnone (Or.inl hstate)
      have hframes : s.state.frames = 0 := by simp [ConnectionState.frames, hstate]
      have hmore : 1 ≤ s'.state.frames := by
        rw [heffect.state]
        rcases askedState_cases handshake.nextState with hasked | hasked
        · simp only [ConnectionState.frames, hasked]
          split <;> decide
        · simp [ConnectionState.frames, hasked]
      constructor
      · rw [List.length_append, List.length_singleton, loginStarts_concat]
        omega
      · intro _
        rw [loginStarts_concat, hstarts, if_neg (by simp [hstate])]
  | statusRequest json hstate hid hseen hentries hlive heffect =>
      have hstarts := hnone (Or.inr hstate)
      have hframes : s.state.frames = 1 := by simp [ConnectionState.frames, hstate, hseen]
      have hmore : s'.state.frames = 2 := by
        rw [heffect.state]
        simp [ConnectionState.frames, hstate]
      constructor
      · rw [List.length_append, List.length_singleton, loginStarts_concat]
        omega
      · intro _
        rw [loginStarts_concat, hstarts, if_neg (by simp [hstate])]
  | ping ping hstate hid hdecode hentries heffect => cases hlive
  | loginStart start hstate hid haccepts hentries hanswered heffect =>
      have hstate' : s'.state = s.state := heffect.state
      constructor
      · rw [List.length_append, List.length_singleton, loginStarts_concat, if_pos ⟨hstate, hid⟩, hstate']
        omega
      · rw [hstate', hstate]
        rintro (hother | hother) <;> cases hother
  | loginRefused start reason hstate hid hdecode hinvalid hreason hentries heffect => cases hlive
  | loginAcknowledged hstate hid heffect =>
      have hframes : s.state.frames = 1 := by simp [ConnectionState.frames, hstate]
      have hmore : s'.state.frames = 2 := by
        rw [heffect.state]
        rfl
      constructor
      · rw [List.length_append, List.length_singleton, loginStarts_concat]
        omega
      · rw [heffect.state]
        rintro (hother | hother) <;> cases hother
  | refused hhandshake hstart hack => cases hlive

theorem Run.few {history : List (Connection × RawPacket)} {live : Bool} {s : Connection}
    (h : Run env config history live s) : live = true → Few history s := by
  refine Run.step_induction (P := fun history live s => live = true → Few history s) ?_ ?_ h
  · exact fun _ => ⟨le_rfl, fun _ => rfl⟩
  · rintro history s frame live s' - hfew hstep rfl
    exact (hfew rfl).step hstep

theorem ConnectionState.frames_le (state : ConnectionState) : state.frames ≤ 2 := by
  obtain ⟨current, seen⟩ := state
  cases current <;> cases seen <;> decide

/-! ## How long they can take -/

/-- A connection that waits has handled this many frames at least. -/
def Service.Handles (env : Env) (config : ServerConfig) (f : Service) (n : Nat) : Prop :=
  ∀ s, f = .waiting s → ∃ history, Run env config history true s ∧ n ≤ history.length

theorem Service.Handles.next {f f' : Service} {n : Nat} {buffer rest : Bytes}
    (h : Service.Handles env config f n) (hnext : (serverReactor env).next f buffer = some (f', rest)) :
    Service.Handles env config f' (n + 1) := by
  obtain ⟨s, rfl, ⟨e, -, rfl, -⟩ | ⟨frame, -, rfl, -⟩, -⟩ := (serverEnd env).next_eq_some env.zlib env.target hnext
  · intro s' hwaiting
    cases hwaiting
  · obtain ⟨history, hrun, hle⟩ := h s rfl
    intro s' hwaiting
    refine ⟨_, hrun.proceed (Service.handled_eq_waiting.mp hwaiting), ?_⟩
    rw [List.length_append, List.length_singleton]
    exact Nat.succ_le_succ hle

/-- By the deadline of `p` there have been three read timeouts at most, one more for each `LoginStart`, and the time
    for which the connection was busy. -/
def Connection.Patience (env : Env) (config : ServerConfig) (readTimeout : Nat) (p : Waiting Service UInt8)
    (s : Connection) : Prop :=
  ∃ history, Run env config history true s ∧
    p.deadline ≤ (3 + loginStarts history) * readTimeout + p.busy ∧
    (s.state.current = .handshaking ∨ s.state.current = .status → p.deadline ≤ 3 * readTimeout + p.busy)

theorem patience_of_within {readTimeout : Nat} {arrivals : List (Arrival UInt8)} {p : Waiting Service UInt8}
    {s : Connection} (h : Reactor.Within (serverReactor env) readTimeout (Service.Handles env config)
      (.waiting (.new config)) arrivals p) (hwaiting : p.state = .waiting s) :
    Connection.Patience env config readTimeout p s := by
  obtain ⟨n, hhandles, hwithin⟩ := h.bought
  obtain ⟨history, hrun, hle⟩ := hhandles s hwaiting
  have hfew := hrun.few rfl
  have hframes := s.state.frames_le
  have hlength := hfew.length
  have hbound : p.deadline ≤ (3 + loginStarts history) * readTimeout + p.busy := by
    have hn : n + 1 ≤ 3 + loginStarts history := by omega
    exact le_trans hwithin (Nat.add_le_add_right (Nat.mul_le_mul_right readTimeout hn) p.busy)
  refine ⟨history, hrun, hbound, fun hstate => ?_⟩
  rwa [hfew.none hstate] at hbound

/-- What the frames that were handled tell of a connection under the clock. -/
theorem awaits_within {readTimeout : Nat} {arrivals : List (Arrival UInt8)} {timed : Timed Service UInt8}
    (h : Connection.awaits env config readTimeout arrivals = some timed) :
    (∀ p, timed = .waiting p → Reactor.Within (serverReactor env) readTimeout (Service.Handles env config)
      (.waiting (.new config)) arrivals p) ∧
    ∀ p, timed = .expired p → ∃ read late, arrivals = read ++ late ∧
      Reactor.Within (serverReactor env) readTimeout (Service.Handles env config) (.waiting (.new config)) read p := by
  have hstart : Service.Handles env config (.waiting (.new config)) 0 := by
    intro s hfresh
    obtain rfl := Framed.waiting.inj hfresh
    exact ⟨[], .fresh, le_rfl⟩
  exact Reactor.arrive_within hstart (fun f n buffer f' rest hP hnext => hP.next hnext) h

/-- **Slow peers are dropped.** Whatever bytes arrive and however slowly.

    A connection that waits is where the same bytes take it without a clock. By its deadline there have been
    three read timeouts at most, one more for each `LoginStart` that it has handled, and the time for which it
    was busy; before a login, three and that time.

    Bytes that do not complete a frame leave the deadline where it is, and once it has passed, whatever happens
    next finds the connection ended.

    It has then ended with a timeout, at such a deadline, where the bytes that were read by then had taken it,
    and nothing that arrives later changes that. -/
theorem slow_peers_dropped {readTimeout : Nat} {arrivals : List (Arrival UInt8)} {timed : Timed Service UInt8}
    (h : Connection.awaits env config readTimeout arrivals = some timed) :
    (∀ p s, timed = .waiting p → p.state = .waiting s →
      (p.state, p.buffer) = Connection.reads env config (arrivals.map (·.chunk)) ∧ p.now ≤ p.deadline ∧
        Connection.Patience env config readTimeout p s) ∧
    (∀ p a, timed = .waiting p → p.now ≤ a.time → a.time ≤ a.resumed →
      (a.time ≤ p.deadline → (serverReactor env).next p.state (p.buffer ++ a.chunk) = none →
        Connection.awaits env config readTimeout (arrivals ++ [a])
          = some (.waiting { p with buffer := p.buffer ++ a.chunk, now := a.time })) ∧
      (p.deadline < a.time → Connection.awaits env config readTimeout (arrivals ++ [a]) = some (.expired p))) ∧
    ∀ p s, timed = .expired p → p.state = .waiting s →
      Connection.returned timed = some (.error .timeout s) ∧
      (∃ read late, arrivals = read ++ late ∧
        (p.state, p.buffer) = Connection.reads env config (read.map (·.chunk))) ∧
      Connection.Patience env config readTimeout p s ∧
      ∀ a, Connection.awaits env config readTimeout (arrivals ++ [a]) = some timed := by
  obtain ⟨hwithin, hexpired⟩ := awaits_within h
  refine ⟨?_, ?_, ?_⟩
  · intro p s hwaiting hstate
    have hp := hwithin p hwaiting
    exact ⟨hp.fed, hp.now, patience_of_within hp hstate⟩
  · rintro p a rfl hnow hresumed
    exact ⟨fun hbefore hnext => runEvents_snoc h (Reactor.arrive_incomplete hnow hresumed hbefore hnext),
      fun hlate => runEvents_snoc h (Reactor.arrive_late hnow hresumed hlate)⟩
  · rintro p s rfl hstate
    obtain ⟨read, late, harrivals, hp⟩ := hexpired p rfl
    refine ⟨?_, ⟨read, late, harrivals, hp.fed⟩, patience_of_within hp hstate, fun a => runEvents_snoc h rfl⟩
    rw [Connection.returned, hstate, Connection.finish]

/-- A peer that drips a handshake for as long as it can, skips the login, and is silent then. -/
def drip : List (Arrival UInt8) := [⟨10, [8, 0, 136], 10⟩, ⟨30, [6, 1, 97, 99, 221, 2], 30⟩, ⟨60, [1, 3], 60⟩]

theorem slow_peers_dropped_drip :
    ∃ p s, Connection.awaits storedEnv .default 30 drip = some (.waiting p) ∧ p.deadline = 90 ∧
      Connection.awaits storedEnv .default 30 (drip ++ [⟨91, [0], 91⟩]) = some (.expired p) ∧
      Connection.returned (.expired p) = some (.error .timeout s) ∧
      ∃ history, Run storedEnv .default history true s ∧ 90 ≤ (3 + loginStarts history) * 30 + 0 := by
  have hawaits : Connection.awaits storedEnv .default 30 drip = some (.waiting
      ⟨.waiting { Connection.new .default with state := ⟨.configuration, false⟩ }, [], 60, 90, 0⟩) := rfl
  have hlate := ((slow_peers_dropped hawaits).2.1 _ ⟨91, [0], 91⟩ rfl (by decide) le_rfl).2 (by decide)
  obtain ⟨hreturned, -, ⟨history, hrun, hbound, -⟩, -⟩ := (slow_peers_dropped hlate).2.2 _ _ rfl rfl
  exact ⟨_, _, hawaits, rfl, hlate, hreturned, history, hrun, hbound⟩

end Pyrite.Net
