import Pyrite.Net.Login

set_option autoImplicit false

/-! # The bodies of the frames

Three of the five handlers decode the body as the packet type that was selected and refuse what is left
over. The other two are for packets without fields: they do not look at the body, so a frame of these
types is accepted whatever it carries. A run is accounted for to the last byte exactly if it has no such
frame (`bodies_accounted_iff`). -/

namespace Pyrite.Net

open Wire Protocol

variable {env : Env} {config : ServerConfig} {history : List (Connection × RawPacket)} {live : Bool}
  {s : Connection}

/-! ## Bodies -/

/-- The body is one packet of type `P`, with no bytes left over. -/
def DecodesAs (P : Type) [Packet P] (t : Target) (body : Bytes) : Prop :=
  ∃ packet : P, Packet.decode t body = .ok packet []

def Serverbound.DecodesAs (t : Target) (body : Bytes) : Serverbound → Prop
  | .handshake => Net.DecodesAs Handshake t body
  | .statusRequest => Net.DecodesAs StatusRequest t body
  | .pingRequest => Net.DecodesAs PingRequest t body
  | .loginStart => Net.DecodesAs LoginStart t body
  | .loginAcknowledged => Net.DecodesAs LoginAcknowledged t body

/-- The body of the frame is exactly one packet of the type that the state and the ID select. -/
def Exact (env : Env) (s : Connection) (frame : RawPacket) : Prop :=
  ∃ kind, selected s.state.current frame.id = some kind ∧ kind.DecodesAs env.target frame.body

/-- A body where the packet has none, in a frame that is acted upon: a first status request, or an
    acknowledgement. -/
def BodyIgnored (s : Connection) (frame : RawPacket) : Prop :=
  frame.body ≠ [] ∧
    ((s.state.current = .status ∧ frame.id = Packet.id StatusRequest ∧ s.state.statusRequestSeen = false) ∨
     (s.state.current = .login ∧ frame.id = Packet.id LoginAcknowledged))

/-- A frame that is not exact ends the connection and has no effect. -/
def Accounted (env : Env) (s : Connection) (frame : RawPacket) : Prop :=
  ¬ Exact env s frame → ∃ e, Connection.handle env frame s = .error e s

theorem decodesAs_statusRequest {t : Target} {body : Bytes} : DecodesAs StatusRequest t body ↔ body = [] := by
  constructor
  · intro h
    obtain ⟨packet, hpacket⟩ := h
    cases hpacket
    rfl
  · intro h
    subst h
    exact ⟨_, rfl⟩

theorem decodesAs_loginAcknowledged {t : Target} {body : Bytes} :
    DecodesAs LoginAcknowledged t body ↔ body = [] := by
  constructor
  · intro h
    obtain ⟨packet, hpacket⟩ := h
    cases hpacket
    rfl
  · intro h
    subst h
    exact ⟨_, rfl⟩

/-- What `decodeAs` does with a body that is not exactly one packet. -/
theorem decodeAs_of_not {P : Type} [Packet P] [TotalPacket P] {frame : RawPacket}
    (h : ¬ DecodesAs P env.target frame.body) (s : Connection) :
    ∃ e, Connection.decodeAs P env frame s = .error e s := by
  have hspec := decodeAs_spec P env frame s
  rcases hspec.exists with ⟨packet, s', heq⟩ | ⟨e, s', heq⟩
  · rw [heq] at hspec
    exact absurd ⟨packet, hspec.1⟩ h
  · rw [heq] at hspec
    obtain ⟨rfl, -⟩ := hspec
    exact ⟨e, heq⟩

/-- A handler that starts with `decodeAs`. -/
theorem decodeAs_bind_of_not {P α : Type} [Packet P] [TotalPacket P] {frame : RawPacket}
    (h : ¬ DecodesAs P env.target frame.body) (k : P → Exec NetError Connection α) (s : Connection) :
    ∃ e, (Connection.decodeAs P env frame >>= k) s = .error e s := by
  obtain ⟨e, heq⟩ := decodeAs_of_not h s
  refine ⟨e, ?_⟩
  rw [Exec.bind_apply, heq]
  rfl

/-- An acknowledgement in the login state is accepted whatever its body is. -/
theorem handle_acknowledged {frame : RawPacket} (hstate : s.state.current = .login)
    (hid : frame.id = Packet.id LoginAcknowledged) :
    Connection.handle env frame s
      = .ok .proceed { s with state := { s.state with current := .configuration } } := by
  rw [handle_of_selected (selected_iff.mpr ⟨hstate, hid⟩ : _ = some .loginAcknowledged)]
  simp [Serverbound.handler, Connection.handleLoginAcknowledged, Connection.transition,
    ConnectionState.transition, ConnectionState.permitted, hstate]

/-- A first status request is recorded whatever its body is. -/
theorem handle_firstStatusRequest (env : Env) {frame : RawPacket} (hstate : s.state.current = .status)
    (hid : frame.id = Packet.id StatusRequest) (hseen : s.state.statusRequestSeen = false) :
    (Connection.handle env frame s).Satisfies
      (fun _ s' => s'.state.statusRequestSeen = true) (fun _ s' => s'.state.statusRequestSeen = true) := by
  rw [handle_of_selected (selected_iff.mpr ⟨hstate, hid⟩ : _ = some .statusRequest)]
  simp only [Serverbound.handler, Connection.handleStatusRequest, Exec.bind_apply, Exec.state_apply,
    Outcome.bind_ok, ConnectionState.markStatusRequestSeen, hseen, Bool.false_eq_true, if_false,
    Exec.ofExcept_ok, Exec.pure_apply, Exec.setState_apply]
  cases env.statusToJson (StatusResponseJson.new s.config.motd s.config.maxPlayers 0) with
  | error reason => rfl
  | ok json =>
      refine (send_spec env (.statusResponse { json }) _).seq ?_ ?_
      · intro e s' hpost
        obtain ⟨entries, -, heffect⟩ := hpost
        rw [heffect.state]
      · intro _ s' heffect
        show s'.state.statusRequestSeen = true
        rw [heffect.state]

/-- A status request after the first is refused and changes nothing. -/
theorem handle_duplicateStatusRequest {frame : RawPacket} (hstate : s.state.current = .status)
    (hid : frame.id = Packet.id StatusRequest) (hseen : s.state.statusRequestSeen = true) :
    Connection.handle env frame s = .error .duplicateStatusRequest s := by
  rw [handle_of_selected (selected_iff.mpr ⟨hstate, hid⟩ : _ = some .statusRequest)]
  simp [Serverbound.handler, Connection.handleStatusRequest, ConnectionState.markStatusRequestSeen, hseen]

theorem not_exact_of_selected {frame : RawPacket} {kind : Serverbound}
    (hkind : selected s.state.current frame.id = some kind)
    (h : ¬ kind.DecodesAs env.target frame.body) : ¬ Exact env s frame := by
  intro hexact
  obtain ⟨kind', hkind', hdecodes⟩ := hexact
  rw [hkind] at hkind'
  obtain rfl := Option.some.inj hkind'
  exact h hdecodes

/-- **One frame.** In every state, a frame is accounted for exactly if its body is not one that is
    ignored. -/
theorem accounted_iff (env : Env) (s : Connection) (frame : RawPacket) :
    Accounted env s frame ↔ ¬ BodyIgnored s frame := by
  constructor
  · intro haccounted hignored
    obtain ⟨hbody, ⟨hstate, hid, hseen⟩ | ⟨hstate, hid⟩⟩ := hignored
    · have hkind : selected s.state.current frame.id = some .statusRequest := selected_iff.mpr ⟨hstate, hid⟩
      obtain ⟨e, heq⟩ := haccounted (not_exact_of_selected hkind (mt decodesAs_statusRequest.mp hbody))
      -- the request has been recorded
      have hspec := handle_firstStatusRequest env hstate hid hseen
      rw [heq] at hspec
      exact absurd (hseen.symm.trans hspec) (by decide)
    · have hkind : selected s.state.current frame.id = some .loginAcknowledged :=
        selected_iff.mpr ⟨hstate, hid⟩
      obtain ⟨e, heq⟩ := haccounted (not_exact_of_selected hkind (mt decodesAs_loginAcknowledged.mp hbody))
      rw [handle_acknowledged hstate hid] at heq
      cases heq
  · intro hignored hexact
    cases hkind : selected s.state.current frame.id with
    | none => exact ⟨_, handle_of_not_selected hkind⟩
    | some kind =>
        have hdecodes : ¬ kind.DecodesAs env.target frame.body := fun h => hexact ⟨kind, hkind, h⟩
        obtain ⟨hstate, hid⟩ := selected_iff.mp hkind
        cases kind with
        | handshake =>
            rw [handle_of_selected hkind]
            exact decodeAs_bind_of_not hdecodes _ s
        | pingRequest =>
            rw [handle_of_selected hkind]
            exact decodeAs_bind_of_not hdecodes _ s
        | loginStart =>
            rw [handle_of_selected hkind]
            exact decodeAs_bind_of_not hdecodes _ s
        | statusRequest =>
            -- only a duplicate is refused
            have hbody : frame.body ≠ [] := mt decodesAs_statusRequest.mpr hdecodes
            cases hseen : s.state.statusRequestSeen with
            | false => exact absurd ⟨hbody, Or.inl ⟨hstate, hid, hseen⟩⟩ hignored
            | true => exact ⟨_, handle_duplicateStatusRequest hstate hid hseen⟩
        | loginAcknowledged =>
            have hbody : frame.body ≠ [] := mt decodesAs_loginAcknowledged.mpr hdecodes
            exact absurd ⟨hbody, Or.inr ⟨hstate, hid⟩⟩ hignored

/-! ## Runs -/

/-- What may come of a frame that was handled in `s₀`, in a run that stands at `s` and has handled `after`
    since. Either it was accepted and its body decoded to the last byte, or it ended the run with an error,
    and then it has had no effect unless its body did decode. -/
def Settled (env : Env) (s₀ : Connection) (frame : RawPacket) (after : List (Connection × RawPacket))
    (live : Bool) (s : Connection) : Prop :=
  (Exact env s₀ frame ∧ ∃ flow s₁, Connection.handle env frame s₀ = .ok flow s₁) ∨
  (after = [] ∧ live = false ∧ (∃ e, Connection.handle env frame s₀ = .error e s) ∧
    (¬ Exact env s₀ frame → s = s₀))

/-- **Bodies are accounted for.** In a run, every frame was either decoded to the last byte or refused
    without an effect, if and only if no status request that was answered and no acknowledgement had a
    body. -/
theorem bodies_accounted_iff (h : Run env config history live s) :
    (∀ before s₀ frame after, history = before ++ (s₀, frame) :: after →
      Settled env s₀ frame after live s) ↔
    ∀ entry ∈ history, ¬ BodyIgnored entry.1 entry.2 := by
  constructor
  · intro hsettled entry hentry hignored
    obtain ⟨s₀, frame⟩ := entry
    obtain ⟨before, after, heq⟩ := List.append_of_mem hentry
    refine (accounted_iff env s₀ frame).mp ?_ hignored
    intro hexact
    rcases hsettled before s₀ frame after heq with ⟨hexact', -⟩ | ⟨-, -, ⟨e, herror⟩, hkept⟩
    · exact absurd hexact' hexact
    · rw [hkept hexact] at herror
      exact ⟨e, herror⟩
  · intro hnone before s₀ frame after heq
    have hmem : (s₀, frame) ∈ history := by
      rw [heq]
      exact List.mem_append_right _ List.mem_cons_self
    have haccounted := (accounted_iff env s₀ frame).mpr (hnone _ hmem)
    -- an inexact frame that was accepted would not be accounted for
    have hexact_of_ok : ∀ flow s₁, Connection.handle env frame s₀ = .ok flow s₁ → Exact env s₀ frame := by
      intro flow s₁ hok
      by_contra hexact
      obtain ⟨e, herror⟩ := haccounted hexact
      rw [hok] at herror
      cases herror
    rcases h.handled_at before s₀ frame after heq with ⟨s₁, hok⟩ | ⟨hafter, hlive, hok | ⟨e, herror⟩⟩
    · exact Or.inl ⟨hexact_of_ok _ _ hok, _, _, hok⟩
    · exact Or.inl ⟨hexact_of_ok _ _ hok, _, _, hok⟩
    · refine Or.inr ⟨hafter, hlive, ⟨e, herror⟩, fun hexact => ?_⟩
      obtain ⟨e', herror'⟩ := haccounted hexact
      rw [herror] at herror'
      exact (Outcome.error.inj herror').2

/-- A login of Steve. Both of its frames have bodies. -/
theorem bodies_accounted_steve :
    ∃ s, Run steveEnv .default [(.new .default, loginHandshake), (inLogin, steveStart)] true s ∧
      loginHandshake.body.length = 7 ∧ steveStart.body.length = 22 ∧
      ∀ before s₀ frame after,
        [(.new .default, loginHandshake), (inLogin, steveStart)] = before ++ (s₀, frame) :: after →
        Settled steveEnv s₀ frame after true s := by
  obtain ⟨s, hstart, -⟩ := handle_steveStart
  have hrun := run_loginHandshake.proceed hstart
  refine ⟨s, hrun, rfl, rfl, (bodies_accounted_iff hrun).mpr ?_⟩
  intro entry hentry hignored
  obtain ⟨-, ⟨hstate, -⟩ | ⟨-, hid⟩⟩ := hignored
  · rcases List.mem_pair.mp hentry with rfl | rfl <;> cases hstate
  · rcases List.mem_pair.mp hentry with rfl | rfl <;> exact absurd hid (by decide)

/-- An acknowledgement with a body is accepted, and takes the connection to the configuration state. -/
theorem acknowledgement_with_body_accepted :
    ∃ s, Run steveEnv .default [(.new .default, loginHandshake), (inLogin, ⟨3, [0]⟩)] true s ∧
      Connection.handle steveEnv ⟨3, [0]⟩ inLogin = .ok .proceed s ∧ s.state.current = .configuration ∧
      ¬ Exact steveEnv inLogin ⟨3, [0]⟩ := by
  have hstep : Connection.handle steveEnv ⟨3, [0]⟩ inLogin
      = .ok .proceed { inLogin with state := { inLogin.state with current := .configuration } } :=
    handle_acknowledged rfl rfl
  refine ⟨_, run_loginHandshake.proceed hstep, hstep, rfl, ?_⟩
  have hkind : selected inLogin.state.current 3 = some .loginAcknowledged := rfl
  exact not_exact_of_selected hkind (mt decodesAs_loginAcknowledged.mp (by simp))

end Pyrite.Net
