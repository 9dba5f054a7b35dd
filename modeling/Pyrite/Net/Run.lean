import Pyrite.Net.Steps

set_option autoImplicit false

/-! # Runs of a connection

`Handled` is what a step means for a login: it moves out of the handshake, answers a `LoginStart`, enters
the configuration state, or does none of these (`handle_spec`). A `Run` is a sequence of handled frames
from a fresh connection, with the history of what was handled in which state; every input sequence of
`Connection.run` ends in a state of such a run (`run_spec`), and invariants are proved over them with
`Run.step_induction` and `Run.induction`. -/

namespace Pyrite.Net

open Wire Protocol

/-- Neither a `SetCompression` nor a `LoginSuccess`. -/
def Emitted.Quiet (e : Emitted) : Prop :=
  match e.packet with
  | .setCompression _ => False
  | .loginSuccess _ => False
  | _ => True

/-- A packet that may or may not have been logged. -/
theorem Emitted.Quiet.of_prefix {e : Emitted} (h : e.Quiet) {entries : List Emitted}
    (hentries : entries <+: [e]) : ∀ e' ∈ entries, Emitted.Quiet e' := by
  intro e' he'
  rw [List.mem_singleton.mp (hentries.subset he')]
  exact h

/-! ## Handling a frame -/

/-- Everything that handling `frame` can do to `s`. The flag says whether the connection goes on. -/
inductive Handled (env : Env) (s : Connection) (frame : RawPacket) : Bool → Connection → Prop where
  /-- A handshake moves the connection on. -/
  | handshake {s' : Connection} {target : State} (hstate : s.state.current = .handshaking)
      (htarget : target = .status ∨ target = .login)
      (heffect : Effect s s' { s.state with current := target } [] s.codec.compressionThreshold) :
      Handled env s frame true s'
  /-- An accepted `LoginStart` is answered, or the connection fails on the way. -/
  | loginStart {live : Bool} {s' : Connection} {start : LoginStart} {entries : List Emitted}
      {threshold : Option Int32} (hstate : s.state.current = .login)
      (hid : frame.id = Packet.id LoginStart) (haccepts : Accepts env frame start)
      (hentries : entries <+: loginEntries env s start)
      (hlive : live = true → entries = loginEntries env s start)
      (heffect : Effect s s' s.state entries threshold) : Handled env s frame live s'
  /-- An acknowledgement enters the configuration state. -/
  | loginAcknowledged {s' : Connection} (hstate : s.state.current = .login)
      (hid : frame.id = Packet.id LoginAcknowledged)
      (heffect : Effect s s' { s.state with current := .configuration } []
        s.codec.compressionThreshold) : Handled env s frame true s'
  /-- Anything else: the status exchange, and every refusal. -/
  | other {live : Bool} {s' : Connection} {state : ConnectionState} {entries : List Emitted}
      (hlogin : s.state.current = .login → live = false ∧ frame.id ≠ Packet.id LoginAcknowledged)
      (hcurrent : state.current = s.state.current) (hquiet : ∀ e ∈ entries, Emitted.Quiet e)
      (heffect : Effect s s' state entries s.codec.compressionThreshold) : Handled env s frame live s'

/-- Handling a frame sends some of the answer to an accepted `LoginStart`, or nothing of a login; in the
    latter case the compression setting stays. -/
theorem Handled.loginStart_or_quiet {env : Env} {s s' : Connection} {frame : RawPacket} {live : Bool}
    (h : Handled env s frame live s') :
    (∃ start entries, s.state.current = .login ∧ frame.id = Packet.id LoginStart ∧
      Accepts env frame start ∧ entries <+: loginEntries env s start ∧ s'.sent = s.sent ++ entries) ∨
    (∃ entries, (∀ e ∈ entries, Emitted.Quiet e) ∧ s'.sent = s.sent ++ entries ∧
      s'.codec.compressionThreshold = s.codec.compressionThreshold) := by
  cases h with
  | handshake _ _ heffect => exact Or.inr ⟨[], by simp, heffect.sent, heffect.threshold⟩
  | loginStart hstate hid haccepts hentries _ heffect =>
      exact Or.inl ⟨_, _, hstate, hid, haccepts, hentries, heffect.sent⟩
  | loginAcknowledged _ _ heffect => exact Or.inr ⟨[], by simp, heffect.sent, heffect.threshold⟩
  | other _ _ hquiet heffect => exact Or.inr ⟨_, hquiet, heffect.sent, heffect.threshold⟩

/-- A `LoginStart` after which the connection goes on was accepted and answered in full. -/
theorem Handled.of_loginStart {env : Env} {s s' : Connection} {frame : RawPacket}
    (h : Handled env s frame true s') (hstate : s.state.current = .login)
    (hid : frame.id = Packet.id LoginStart) :
    ∃ start, Accepts env frame start ∧ s'.sent = s.sent ++ loginEntries env s start := by
  cases h with
  | handshake hstate' _ _ => rw [hstate] at hstate'; cases hstate'
  | loginStart _ _ haccepts _ hlive heffect => exact ⟨_, haccepts, by rw [heffect.sent, hlive rfl]⟩
  | loginAcknowledged _ hid' _ => rw [hid] at hid'; exact absurd hid' (by decide)
  | other hlogin _ _ _ => exact absurd (hlogin hstate).1 (by simp)

theorem Handled.sent_sublist {env : Env} {s s' : Connection} {frame : RawPacket} {live : Bool}
    (h : Handled env s frame live s') : s.sent.Sublist s'.sent := by
  rcases h.loginStart_or_quiet with ⟨start, entries, -, -, -, -, hsent⟩ | ⟨entries, -, hsent, -⟩
  · rw [hsent]
    exact List.sublist_append_left s.sent entries
  · rw [hsent]
    exact List.sublist_append_left s.sent entries

/-- A step, as far as a login is concerned. -/
theorem Step.handled {env : Env} {s s' : Connection} {frame : RawPacket} {live : Bool}
    (h : Step env s frame live s') : Handled env s frame live s' := by
  -- what happens in the status state belongs to no login
  have hstatus : ∀ {live : Bool} {P : Prop}, s.state.current = .status → s.state.current = .login →
      live = false ∧ P := by
    intro live P hstate hlogin
    rw [hstate] at hlogin
    cases hlogin
  cases h with
  | handshake handshake hstate _ _ heffect =>
      exact .handshake hstate (askedState_cases handshake.nextState) heffect
  | statusRequest json hstate _ _ hentries _ heffect =>
      exact .other (hstatus hstate) (by rfl) (Emitted.Quiet.of_prefix (by trivial) hentries) heffect
  | ping ping hstate _ _ hentries heffect =>
      exact .other (hstatus hstate) rfl (Emitted.Quiet.of_prefix (by trivial) hentries) heffect
  | loginStart start hstate hid haccepts hentries hlive heffect =>
      exact .loginStart hstate hid haccepts hentries (fun h => (hlive h).1) heffect
  | loginRefused start reason hstate hid _ _ _ hentries heffect =>
      refine .other (fun _ => ⟨rfl, ?_⟩) rfl (Emitted.Quiet.of_prefix (by trivial) hentries) heffect
      rw [hid]
      decide
  | loginAcknowledged hstate hid heffect => exact .loginAcknowledged hstate hid heffect
  | refused _ _ hack => exact .other (fun hlogin => ⟨rfl, hack hlogin⟩) rfl (by simp) (Effect.refl s)

theorem handle_spec (env : Env) (frame : RawPacket) (s : Connection) :
    (Connection.handle env frame s).Satisfies
      (fun flow s' => Handled env s frame (flow == .proceed) s')
      (fun _ s' => Handled env s frame false s') :=
  (handle_step env frame s).mono (fun _ _ hstep => hstep.handled) fun _ _ hstep => hstep.handled

/-! ## Runs -/

/-- `Run env config history live s`: from a fresh connection, the frames of `history` have been handled,
    each in the state it is paired with, and `s` is the state after the last of them. `live` is false
    once the connection has been closed or has failed; nothing is handled after that. -/
inductive Run (env : Env) (config : ServerConfig) :
    List (Connection × RawPacket) → Bool → Connection → Prop where
  | fresh : Run env config [] true (.new config)
  | proceed {history : List (Connection × RawPacket)} {s s' : Connection} {frame : RawPacket}
      (h : Run env config history true s) (hstep : Connection.handle env frame s = .ok .proceed s') :
      Run env config (history ++ [(s, frame)]) true s'
  | close {history : List (Connection × RawPacket)} {s s' : Connection} {frame : RawPacket}
      (h : Run env config history true s) (hstep : Connection.handle env frame s = .ok .close s') :
      Run env config (history ++ [(s, frame)]) false s'
  | fail {history : List (Connection × RawPacket)} {s s' : Connection} {frame : RawPacket} {e : NetError}
      (h : Run env config history true s) (hstep : Connection.handle env frame s = .error e s') :
      Run env config (history ++ [(s, frame)]) false s'

/-- Induction over runs: what holds of a fresh connection and is kept by every step, holds throughout. -/
theorem Run.step_induction {env : Env} {config : ServerConfig}
    {P : List (Connection × RawPacket) → Bool → Connection → Prop} (hfresh : P [] true (.new config))
    (hstep : ∀ history s frame live s', Run env config history true s → P history true s →
      Step env s frame live s' → P (history ++ [(s, frame)]) live s')
    {history : List (Connection × RawPacket)} {live : Bool} {s : Connection}
    (h : Run env config history live s) : P history live s := by
  induction h with
  | fresh => exact hfresh
  | @proceed history s s' frame h heq ih =>
      exact hstep history s frame true s' h ih ((handle_step env frame s).of_ok heq)
  | @close history s s' frame h heq ih =>
      exact hstep history s frame false s' h ih ((handle_step env frame s).of_ok heq)
  | @fail history s s' frame e h heq ih =>
      have hspec := handle_step env frame s
      rw [heq] at hspec
      exact hstep history s frame false s' h ih hspec

/-- The same for what a step means for a login. -/
theorem Run.induction {env : Env} {config : ServerConfig}
    {P : List (Connection × RawPacket) → Bool → Connection → Prop} (hfresh : P [] true (.new config))
    (hstep : ∀ history s frame live s', Run env config history true s → P history true s →
      Handled env s frame live s' → P (history ++ [(s, frame)]) live s')
    {history : List (Connection × RawPacket)} {live : Bool} {s : Connection}
    (h : Run env config history live s) : P history live s :=
  Run.step_induction (P := P) hfresh
    (fun history s frame live s' hrun hP hst => hstep history s frame live s' hrun hP hst.handled) h

/-- The last step of a run. -/
theorem Run.last {env : Env} {config : ServerConfig} {history : List (Connection × RawPacket)}
    {live : Bool} {s₀ s : Connection} {frame : RawPacket}
    (h : Run env config (history ++ [(s₀, frame)]) live s) :
    Run env config history true s₀ ∧ Handled env s₀ frame live s := by
  refine Run.induction (P := fun history' live s => history' = history ++ [(s₀, frame)] →
    Run env config history true s₀ ∧ Handled env s₀ frame live s) ?_ ?_ h rfl
  · intro heq
    simp at heq
  · intro history' s₁ frame' live s' hrun _ hhandled heq
    obtain ⟨rfl, hlast⟩ := List.append_inj' heq rfl
    obtain ⟨rfl, rfl⟩ : s₁ = s₀ ∧ frame' = frame := by simpa using hlast
    exact ⟨hrun, hhandled⟩

/-- Where a place in a list that has grown by one falls. -/
theorem split_concat {α : Type} {xs ys zs : List α} {x y : α} (h : xs ++ [x] = ys ++ y :: zs) :
    (zs = [] ∧ ys = xs ∧ y = x) ∨ ∃ zs', zs = zs' ++ [x] ∧ xs = ys ++ y :: zs' := by
  rcases zs.eq_nil_or_concat with rfl | ⟨zs', z, rfl⟩
  · obtain ⟨hxs, hx⟩ := List.append_inj' h rfl
    exact Or.inl ⟨rfl, hxs.symm, by simpa using hx.symm⟩
  · have hassoc : xs ++ [x] = (ys ++ y :: zs') ++ [z] := by simpa using h
    obtain ⟨hxs, hx⟩ := List.append_inj' hassoc rfl
    exact Or.inr ⟨zs', by simpa using hx.symm, hxs⟩

/-- What came of a frame that a run has handled: the run went on, or the frame is its last. -/
theorem Run.handled_at {env : Env} {config : ServerConfig} {history : List (Connection × RawPacket)}
    {live : Bool} {s : Connection} (h : Run env config history live s) :
    ∀ before s₀ frame after, history = before ++ (s₀, frame) :: after →
      (∃ s₁, Connection.handle env frame s₀ = .ok .proceed s₁) ∨
      (after = [] ∧ live = false ∧ (Connection.handle env frame s₀ = .ok .close s ∨
        ∃ e, Connection.handle env frame s₀ = .error e s)) := by
  induction h with
  | fresh =>
      intro before s₀ frame after heq
      simp at heq
  | @proceed history s s' last _ hstep ih =>
      intro before s₀ frame after heq
      rcases split_concat heq with ⟨-, -, hlast⟩ | ⟨after', -, hbefore⟩
      · obtain ⟨rfl, rfl⟩ := Prod.mk.inj hlast
        exact Or.inl ⟨_, hstep⟩
      · rcases ih before s₀ frame after' hbefore with hproceed | ⟨-, hlive, -⟩
        · exact Or.inl hproceed
        · cases hlive
  | @close history s s' last _ hstep ih =>
      intro before s₀ frame after heq
      rcases split_concat heq with ⟨hafter, -, hlast⟩ | ⟨after', -, hbefore⟩
      · obtain ⟨rfl, rfl⟩ := Prod.mk.inj hlast
        exact Or.inr ⟨hafter, rfl, Or.inl hstep⟩
      · rcases ih before s₀ frame after' hbefore with hproceed | ⟨-, hlive, -⟩
        · exact Or.inl hproceed
        · cases hlive
  | @fail history s s' last e _ hstep ih =>
      intro before s₀ frame after heq
      rcases split_concat heq with ⟨hafter, -, hlast⟩ | ⟨after', -, hbefore⟩
      · obtain ⟨rfl, rfl⟩ := Prod.mk.inj hlast
        exact Or.inr ⟨hafter, rfl, Or.inr ⟨e, hstep⟩⟩
      · rcases ih before s₀ frame after' hbefore with hproceed | ⟨-, hlive, -⟩
        · exact Or.inl hproceed
        · cases hlive

/-- Whatever the inputs, `Connection.run` stays within the runs, and it neither panics nor diverges. -/
theorem run_spec {env : Env} {config : ServerConfig} (inputs : List Connection.Input)
    {history : List (Connection × RawPacket)} {s : Connection} (h : Run env config history true s) :
    (Connection.run env inputs s).Satisfies
      (fun _ s' => ∃ history live, Run env config history live s')
      (fun _ s' => ∃ history live, Run env config history live s') := by
  induction inputs generalizing history s with
  | nil => exact ⟨history, true, h⟩
  | cons input inputs ih =>
      cases input with
      | elapsed => exact ⟨history, true, h⟩
      | closed => exact ⟨history, true, h⟩
      | invalid error => exact ⟨history, true, h⟩
      | frame frame =>
          have hspec := handle_spec env frame s
          rw [Connection.run, Exec.bind_apply]
          cases heq : Connection.handle env frame s with
          | ok flow s' =>
              cases flow with
              | proceed => exact ih (h.proceed heq)
              | close => exact ⟨_, false, h.close heq⟩
          | error e s' => exact ⟨_, false, h.fail heq⟩
          | panic => rw [heq] at hspec; exact hspec
          | diverge => rw [heq] at hspec; exact hspec

end Pyrite.Net
