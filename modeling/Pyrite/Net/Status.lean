import Pyrite.Net.Bodies

set_option autoImplicit false

/-! # Status connections

Packet IDs collide across the states: `0x00` is a handshake, a status request and a login request. What
keeps a status connection from becoming a login is the state alone. This file follows a run through the
status exchange: before a handshake nothing is sent; after one that asks for the status the connection
stays in the status state, uncompressed, and sends at most one response and at most one pong, the latter
in answer to its last frame (`status_ping_protocol`). -/

namespace Pyrite.Net

open Wire Protocol

variable {env : Env} {config : ServerConfig} {history : List (Connection × RawPacket)} {live : Bool}
  {s : Connection}

/-! ## Before the handshake -/

/-- A valid handshake that asks for `next`, handled in the handshaking state. -/
def AsksFor (env : Env) (entry : Connection × RawPacket) (next : NextState) : Prop :=
  entry.1.state.current = .handshaking ∧ entry.2.id = Packet.id Handshake ∧
    ∃ handshake : Handshake, Packet.decode env.target entry.2.body = .ok handshake [] ∧
      handshake.nextState = next

/-- A connection that has not moved yet. -/
structure Untouched (s : Connection) : Prop where
  sent : s.sent = []
  uncompressed : s.codec.compressionThreshold = none
  unseen : s.state.statusRequestSeen = false

theorem Run.untouched (h : Run env config history live s) :
    s.state.current = .handshaking → Untouched s := by
  refine Run.step_induction (P := fun _ _ s => s.state.current = .handshaking → Untouched s) ?_ ?_ h
  · intro _
    exact ⟨rfl, rfl, rfl⟩
  · intro history s frame live s' _ ih hstep hstate
    -- no step leads to the handshaking state, and in it only a refusal stays
    have hbefore : s.state.current = .handshaking := by
      rcases hstep.current with hkept | ⟨hbefore, -⟩ | ⟨-, hconfiguration⟩
      · exact hkept.symm.trans hstate
      · exact hbefore
      · cases hconfiguration.symm.trans hstate
    rcases hstep.of_handshaking hbefore with ⟨handshake, -, -, heffect⟩ | ⟨rfl, -⟩
    · rw [heffect.state] at hstate
      rcases askedState_cases handshake.nextState with hasked | hasked
      · cases hasked.symm.trans hstate
      · cases hasked.symm.trans hstate
    · exact ih hbefore

/-- Without a valid handshake the connection does not leave the handshaking state. -/
theorem Run.handshaking_of_no_handshake (h : Run env config history live s) :
    (∀ entry ∈ history, ∀ next, ¬ AsksFor env entry next) → s.state.current = .handshaking := by
  refine Run.step_induction (P := fun history _ s => (∀ entry ∈ history, ∀ next, ¬ AsksFor env entry next) →
    s.state.current = .handshaking) ?_ ?_ h
  · intro _
    rfl
  · intro history s frame live s' _ ih hstep hnone
    have hstate := ih fun entry hentry => hnone entry (List.mem_append_left _ hentry)
    rcases hstep.of_handshaking hstate with ⟨handshake, hid, hdecode, -⟩ | ⟨rfl, -⟩
    · have hlast := hnone (s, frame) (List.mem_append_right _ (List.mem_singleton_self _))
      exact absurd ⟨hstate, hid, handshake, hdecode, rfl⟩ (hlast handshake.nextState)
    · exact hstate

/-! ## The status exchange -/

/-- At most one response, then at most one pong. The pong answers the last of the frames that were
    handled `after` the handshake, a ping with the same payload, and the connection is over. -/
def Exchange (env : Env) (after : List (Connection × RawPacket)) (live : Bool) (sent : List Emitted) : Prop :=
  ∃ responses pongs, sent = responses ++ pongs ∧
    (responses = [] ∨ ∃ response, responses = [⟨.statusResponse response, none⟩]) ∧
    (pongs = [] ∨ ∃ ping : PingRequest, pongs = [⟨.pongResponse { payload := ping.payload }, none⟩] ∧
      live = false ∧ ∃ earlier s₁ frame, after = earlier ++ [(s₁, frame)] ∧
        frame.id = Packet.id PingRequest ∧ Packet.decode env.target frame.body = .ok ping [])

/-- What holds of a run from a handshake that asks for the status on. -/
structure StatusPhase (env : Env) (after : List (Connection × RawPacket)) (live : Bool) (s : Connection) :
    Prop where
  state : s.state.current = .status
  uncompressed : s.codec.compressionThreshold = none
  throughout : ∀ entry ∈ after, entry.1.state.current = .status ∧ entry.1.codec.compressionThreshold = none
  exchange : Exchange env after live s.sent
  /-- While the connection is open, the response has been sent if the request was seen. -/
  answered : live = true → (s.state.statusRequestSeen = false ∧ s.sent = []) ∨
    ∃ response, s.state.statusRequestSeen = true ∧ s.sent = [⟨.statusResponse response, none⟩]

theorem eq_nil_or_singleton {α : Type} {xs : List α} {x : α} (h : xs <+: [x]) : xs = [] ∨ xs = [x] := by
  rcases xs with _ | ⟨y, ys⟩
  · exact Or.inl rfl
  · obtain ⟨rfl, hys⟩ := List.cons_prefix_cons.mp h
    rw [List.prefix_nil.mp hys]
    exact Or.inr rfl

/-- A further frame in the status state. -/
theorem StatusPhase.step {after : List (Connection × RawPacket)} {frame : RawPacket} {s' : Connection}
    (h : StatusPhase env after true s) (hstep : Step env s frame live s') :
    StatusPhase env (after ++ [(s, frame)]) live s' := by
  have hthroughout : ∀ entry ∈ after ++ [(s, frame)],
      entry.1.state.current = .status ∧ entry.1.codec.compressionThreshold = none := by
    intro entry hentry
    rcases List.mem_append.mp hentry with hentry | hentry
    · exact h.throughout entry hentry
    · obtain rfl := List.mem_singleton.mp hentry
      exact ⟨h.state, h.uncompressed⟩
  -- what was sent so far: nothing, or one response
  have hbefore : s.sent = [] ∨ ∃ response, s.sent = [⟨.statusResponse response, none⟩] := by
    rcases h.answered rfl with ⟨-, hsent⟩ | ⟨response, -, hsent⟩
    · exact Or.inl hsent
    · exact Or.inr ⟨response, hsent⟩
  have huncompressed := h.uncompressed
  cases hstep with
  | refused _ _ _ =>
      refine ⟨h.state, huncompressed, hthroughout, ?_, fun hlive => nomatch hlive⟩
      exact ⟨s.sent, [], (List.append_nil _).symm, hbefore, Or.inl rfl⟩
  | statusRequest json _ _ hseen hentries hlive heffect =>
      have hempty : s.sent = [] := by
        rcases h.answered rfl with ⟨-, hsent⟩ | ⟨response, hseen', -⟩
        · exact hsent
        · rw [hseen] at hseen'
          cases hseen'
      have hsent := heffect.sent
      have hthreshold := heffect.threshold
      rw [hempty, List.nil_append] at hsent
      rw [huncompressed] at hentries hlive hthreshold
      refine ⟨by rw [heffect.state]; exact h.state, hthreshold, hthroughout, ?_, fun hl => ?_⟩
      · refine ⟨s'.sent, [], (List.append_nil _).symm, ?_, Or.inl rfl⟩
        rw [hsent]
        rcases eq_nil_or_singleton hentries with rfl | rfl
        · exact Or.inl rfl
        · exact Or.inr ⟨_, rfl⟩
      · refine Or.inr ⟨{ json }, ?_, ?_⟩
        · rw [heffect.state]
        · rw [hsent, hlive hl]
  | ping ping _ hid hdecode hentries heffect =>
      have hthreshold := heffect.threshold
      rw [huncompressed] at hentries hthreshold
      refine ⟨by rw [heffect.state]; exact h.state, hthreshold, hthroughout, ?_, fun hlive => nomatch hlive⟩
      refine ⟨s.sent, _, heffect.sent, hbefore, ?_⟩
      rcases eq_nil_or_singleton hentries with rfl | rfl
      · exact Or.inl rfl
      · exact Or.inr ⟨ping, rfl, rfl, after, s, frame, rfl, hid, hdecode⟩
  | handshake handshake hstate _ _ _ => cases hstate.symm.trans h.state
  | loginStart start hstate _ _ _ _ _ => cases hstate.symm.trans h.state
  | loginRefused start reason hstate _ _ _ _ _ _ => cases hstate.symm.trans h.state
  | loginAcknowledged hstate _ _ => cases hstate.symm.trans h.state

/-- The handshake itself. -/
theorem statusPhase_handshake {frame : RawPacket} {s' : Connection} (huntouched : Untouched s)
    (hasks : AsksFor env (s, frame) .status) (hstep : Step env s frame live s') :
    StatusPhase env [] live s' := by
  obtain ⟨hstate, hid, handshake, hdecode, hnext⟩ := hasks
  rcases hstep.of_handshaking hstate with ⟨handshake', -, hdecode', heffect⟩ | ⟨-, hnot⟩
  · obtain ⟨rfl, -⟩ := Outcome.ok.inj (hdecode.symm.trans hdecode')
    have hsent : s'.sent = [] := by rw [heffect.sent, huntouched.sent]; rfl
    have hstate' := heffect.state
    rw [hnext] at hstate'
    refine ⟨by rw [hstate']; rfl, by rw [heffect.threshold, huntouched.uncompressed], by simp, ?_, ?_⟩
    · exact ⟨[], [], hsent, Or.inl rfl, Or.inl rfl⟩
    · intro _
      exact Or.inl ⟨by rw [hstate']; exact huntouched.unseen, hsent⟩
  · exact absurd hdecode (hnot handshake hid)

theorem Run.statusPhase (h : Run env config history live s) :
    ∀ before first after, history = before ++ first :: after → AsksFor env first .status →
      StatusPhase env after live s := by
  refine Run.step_induction (P := fun history live s => ∀ before first after,
    history = before ++ first :: after → AsksFor env first .status → StatusPhase env after live s) ?_ ?_ h
  · intro before first after heq
    simp at heq
  · intro history s frame live s' hrun ih hstep before first after heq hasks
    rcases split_concat heq with ⟨rfl, -, rfl⟩ | ⟨after', rfl, hbefore⟩
    · exact statusPhase_handshake (hrun.untouched hasks.1) hasks hstep
    · exact (ih before first after' hbefore hasks).step hstep

/-! ## The configuration state -/

/-- No packet is expected in the configuration state. -/
theorem handle_configuration (hstate : s.state.current = .configuration) (frame : RawPacket) :
    Connection.handle env frame s = .error (.unexpectedPacket .configuration frame.id) s := by
  have hnone : selected s.state.current frame.id = none := by
    rw [hstate]
    rfl
  rw [handle_of_not_selected hnone, hstate]

theorem Run.ends_in_configuration (h : Run env config history live s)
    {before after : List (Connection × RawPacket)} {s₀ : Connection} {frame : RawPacket}
    (heq : history = before ++ (s₀, frame) :: after) (hstate : s₀.state.current = .configuration) :
    after = [] ∧ live = false ∧ s = s₀ := by
  have herror : Connection.handle env frame s₀ = .error (.unexpectedPacket .configuration frame.id) s₀ :=
    handle_configuration hstate frame
  rcases h.handled_at before s₀ frame after heq with ⟨s₁, hok⟩ | ⟨hafter, hlive, hok | ⟨e, herror'⟩⟩
  · rw [herror] at hok
    cases hok
  · rw [herror] at hok
    cases hok
  · rw [herror] at herror'
    exact ⟨hafter, hlive, (Outcome.error.inj herror').2.symm⟩

/-- **The status exchange.** In every run: nothing is sent before a valid handshake; from a handshake that
    asks for the status on, the run is a status exchange and nothing else; a frame in the configuration
    state is refused, has no effect and is the last; and what is rejected leaves the state as it was. -/
theorem status_ping_protocol (h : Run env config history live s) :
    ((∀ entry ∈ history, ∀ next, ¬ AsksFor env entry next) → s.sent = []) ∧
    (∀ before first after, history = before ++ first :: after → AsksFor env first .status →
      StatusPhase env after live s) ∧
    (∀ before s₀ frame after, history = before ++ (s₀, frame) :: after →
      s₀.state.current = .configuration →
      Connection.handle env frame s₀ = .error (.unexpectedPacket .configuration frame.id) s₀ ∧
        after = [] ∧ live = false ∧ s = s₀) ∧
    (∀ target e s', Connection.transition target s = .error e s' → s' = s) ∧
    (∀ frame, s.state.current = .status → frame.id = Packet.id StatusRequest →
      s.state.statusRequestSeen = true →
      Connection.handle env frame s = .error .duplicateStatusRequest s) := by
  refine ⟨fun hnone => ?_, h.statusPhase, ?_, ?_, ?_⟩
  · exact (h.untouched (h.handshaking_of_no_handshake hnone)).sent
  · intro before s₀ frame after heq hstate
    exact ⟨handle_configuration hstate frame, h.ends_in_configuration heq hstate⟩
  · intro target e s' herror
    have hspec := transition_spec target s
    rw [herror] at hspec
    exact hspec.2
  · intro frame hstate hid hseen
    exact handle_duplicateStatusRequest hstate hid hseen

/-- A handshake for protocol 776 that asks for the status. -/
def statusHandshake : RawPacket := ⟨0, [136, 6, 1, 97, 99, 221, 1]⟩

/-- A ping with payload 7. -/
def pingSeven : RawPacket := ⟨1, [0, 0, 0, 0, 0, 0, 0, 7]⟩

/-- The connection after the handshake. -/
def inStatus : Connection := { Connection.new .default with state := ⟨.status, false⟩ }

/-- The log of a connection that was closed by its last frame. -/
def sentAtClose : Outcome NetError Connection Flow → Option (List Emitted)
  | .ok .close s => some s.sent
  | _ => none

theorem handle_of_sentAtClose {frame : RawPacket} {sent : List Emitted}
    (h : sentAtClose (Connection.handle env frame s) = some sent) :
    ∃ s', Connection.handle env frame s = .ok .close s' ∧ s'.sent = sent := by
  unfold sentAtClose at h
  split at h
  · rename_i s' heq
    exact ⟨s', heq, Option.some.inj h⟩
  · cases h

theorem status_ping_protocol_seven :
    ∃ s, Run steveEnv .default [(.new .default, statusHandshake), (inStatus, pingSeven)] false s ∧
      s.sent = [⟨.pongResponse ⟨7⟩, none⟩] ∧ StatusPhase steveEnv [(inStatus, pingSeven)] false s := by
  have hhandshake : Run steveEnv .default [(.new .default, statusHandshake)] true inStatus := .proceed .fresh rfl
  obtain ⟨s, hping, hsent⟩ : ∃ s, Connection.handle steveEnv pingSeven inStatus = .ok .close s ∧
      s.sent = [⟨.pongResponse ⟨7⟩, none⟩] := handle_of_sentAtClose (by decide +kernel)
  have hrun := hhandshake.close hping
  refine ⟨s, hrun, hsent, (status_ping_protocol hrun).2.1 [] (.new .default, statusHandshake) _ rfl ?_⟩
  exact ⟨rfl, rfl, ⟨776, "a", 25565, .status⟩, by decide +kernel, rfl⟩

end Pyrite.Net
