import Pyrite.Net.Connection

set_option autoImplicit false

/-! # One step of a connection

The dispatcher selects a packet type by the state and the packet ID (`selected`), and each type has its
handler (`handle_eq`). `Step` says once, and completely, what handling one frame can do to a connection
(`handle_step`): which frames are acted upon, what is sent, and how the state and the compression setting
change. Nothing after this file unfolds a handler to find that out. -/

namespace Pyrite.Net

open Wire Protocol

/-! ## Selecting a packet type -/

/-- The packets the server accepts. -/
inductive Serverbound where
  | handshake
  | statusRequest
  | pingRequest
  | loginStart
  | loginAcknowledged
  deriving DecidableEq, Repr

/-- The packet type that a state and a packet ID select. -/
def selected (state : State) (id : Int32) : Option Serverbound :=
  match state with
  | .handshaking => if id = Packet.id Handshake then some .handshake else none
  | .status =>
    if id = Packet.id StatusRequest then some .statusRequest
    else if id = Packet.id PingRequest then some .pingRequest
    else none
  | .login =>
    if id = Packet.id LoginStart then some .loginStart
    else if id = Packet.id LoginAcknowledged then some .loginAcknowledged
    else none
  | .configuration => none
  | .play => none

/-- The state a packet type belongs to. -/
def Serverbound.state : Serverbound → State
  | .handshake => Packet.state Handshake
  | .statusRequest => Packet.state StatusRequest
  | .pingRequest => Packet.state PingRequest
  | .loginStart => Packet.state LoginStart
  | .loginAcknowledged => Packet.state LoginAcknowledged

def Serverbound.id : Serverbound → Int32
  | .handshake => Packet.id Handshake
  | .statusRequest => Packet.id StatusRequest
  | .pingRequest => Packet.id PingRequest
  | .loginStart => Packet.id LoginStart
  | .loginAcknowledged => Packet.id LoginAcknowledged

/-- A type is selected by its own state and its own ID, and by nothing else. -/
theorem selected_iff {state : State} {id : Int32} {kind : Serverbound} :
    selected state id = some kind ↔ state = kind.state ∧ id = kind.id := by
  constructor
  · intro h
    cases state with
    | handshaking =>
        simp only [selected, Option.ite_none_right_eq_some] at h
        obtain ⟨hid, hkind⟩ := h
        obtain rfl := Option.some.inj hkind
        exact ⟨rfl, hid⟩
    | status =>
        simp only [selected] at h
        split_ifs at h with hrequest hping
        · obtain rfl := Option.some.inj h
          exact ⟨rfl, hrequest⟩
        · obtain rfl := Option.some.inj h
          exact ⟨rfl, hping⟩
    | login =>
        simp only [selected] at h
        split_ifs at h with hstart hack
        · obtain rfl := Option.some.inj h
          exact ⟨rfl, hstart⟩
        · obtain rfl := Option.some.inj h
          exact ⟨rfl, hack⟩
    | configuration => cases h
    | play => cases h
  · intro h
    obtain ⟨rfl, rfl⟩ := h
    cases kind <;> rfl

/-- The handler of a packet type. -/
def Serverbound.handler (env : Env) (frame : RawPacket) : Serverbound → Exec NetError Connection Flow
  | .handshake => Connection.handleHandshake env frame
  | .statusRequest => Connection.handleStatusRequest env
  | .pingRequest => Connection.handlePing env frame
  | .loginStart => Connection.handleLoginStart env frame
  | .loginAcknowledged => Connection.handleLoginAcknowledged

/-- The handler of what was selected, or the error of a frame that selects nothing. -/
def dispatch (env : Env) (frame : RawPacket) (state : State) :
    Option Serverbound → Exec NetError Connection Flow
  | some kind => kind.handler env frame
  | none => Exec.throw (.unexpectedPacket state frame.id)

theorem handle_eq (env : Env) (frame : RawPacket) (s : Connection) :
    Connection.handle env frame s
      = dispatch env frame s.state.current (selected s.state.current frame.id) s := by
  simp only [Connection.handle, Exec.bind_apply, Exec.state_apply, Outcome.bind_ok, Exec.ite_apply, selected]
  cases s.state.current with
  | handshaking =>
      by_cases hid : frame.id = Packet.id Handshake
      · simp [hid, dispatch, Serverbound.handler]
      · simp [hid, dispatch]
  | status =>
      by_cases hrequest : frame.id = Packet.id StatusRequest
      · simp [hrequest, dispatch, Serverbound.handler]
      by_cases hping : frame.id = Packet.id PingRequest
      · have hne : Packet.id PingRequest ≠ Packet.id StatusRequest := by decide
        simp [hping, hne, dispatch, Serverbound.handler]
      · simp [hrequest, hping, dispatch]
  | login =>
      by_cases hstart : frame.id = Packet.id LoginStart
      · simp [hstart, dispatch, Serverbound.handler]
      by_cases hack : frame.id = Packet.id LoginAcknowledged
      · have hne : Packet.id LoginAcknowledged ≠ Packet.id LoginStart := by decide
        simp [hack, hne, dispatch, Serverbound.handler]
      · simp [hstart, hack, dispatch]
  | configuration => simp [dispatch]
  | play => simp [dispatch]

theorem handle_of_selected {env : Env} {s : Connection} {frame : RawPacket} {kind : Serverbound}
    (h : selected s.state.current frame.id = some kind) :
    Connection.handle env frame s = kind.handler env frame s := by
  rw [handle_eq, h]
  rfl

theorem handle_of_not_selected {env : Env} {s : Connection} {frame : RawPacket}
    (h : selected s.state.current frame.id = none) :
    Connection.handle env frame s = .error (.unexpectedPacket s.state.current frame.id) s := by
  rw [handle_eq, h]
  rfl

/-! ## Sending -/

/-- How `s'` differs from `s`: the configuration is kept and the log has grown by `entries`. -/
structure Effect (s s' : Connection) (state : ConnectionState) (entries : List Emitted)
    (threshold : Option Int32) : Prop where
  config : s'.config = s.config
  state : s'.state = state
  sent : s'.sent = s.sent ++ entries
  threshold : s'.codec.compressionThreshold = threshold

theorem Effect.refl (s : Connection) : Effect s s s.state [] s.codec.compressionThreshold :=
  ⟨rfl, rfl, (List.append_nil _).symm, rfl⟩

theorem Effect.trans {s s₁ s₂ : Connection} {state₁ state₂ : ConnectionState} {xs ys : List Emitted}
    {threshold₁ threshold₂ : Option Int32} (h₁ : Effect s s₁ state₁ xs threshold₁)
    (h₂ : Effect s₁ s₂ state₂ ys threshold₂) : Effect s s₂ state₂ (xs ++ ys) threshold₂ :=
  ⟨h₂.config.trans h₁.config, h₂.state, by rw [h₂.sent, h₁.sent, List.append_assoc], h₂.threshold⟩

theorem Clientbound.encode_spec (env : Env) (codec : PacketCodec) (dst : Bytes) (packet : Clientbound) :
    (packet.encode env codec dst).Satisfies
      (fun _ s => s.1.compressionThreshold = codec.compressionThreshold)
      (fun _ s => s.1.compressionThreshold = codec.compressionThreshold ∧ s.2 = dst) := by
  cases packet <;> exact Protocol.encode_spec _ _ _ _ _

/-- Sending logs the packet, and a failed send logs it or not: nothing else changes. -/
theorem send_spec (env : Env) (packet : Clientbound) (s : Connection) :
    (Connection.send env packet s).Satisfies
      (fun _ s' => Effect s s' s.state [⟨packet, s.codec.compressionThreshold⟩]
        s.codec.compressionThreshold)
      (fun _ s' => ∃ entries, entries <+: [⟨packet, s.codec.compressionThreshold⟩] ∧
        Effect s s' s.state entries s.codec.compressionThreshold) := by
  have hspec := Clientbound.encode_spec env s.codec s.written packet
  unfold Connection.send
  cases hencode : packet.encode env s.codec s.written with
  | ok u r =>
      obtain ⟨codec, written⟩ := r
      rw [hencode] at hspec
      have heffect : Effect s { s with
          codec
          written
          sent := s.sent ++ [{ packet, threshold := s.codec.compressionThreshold }] } s.state
          [⟨packet, s.codec.compressionThreshold⟩] s.codec.compressionThreshold :=
        ⟨rfl, rfl, rfl, hspec⟩
      dsimp only
      cases env.flush written with
      | ok u => exact heffect
      | error reason => exact ⟨_, List.prefix_rfl, heffect⟩
  | error e r =>
      obtain ⟨codec, written⟩ := r
      rw [hencode] at hspec
      exact ⟨[], List.nil_prefix, rfl, rfl, (List.append_nil _).symm, hspec.1⟩
  | panic => rw [hencode] at hspec; exact hspec
  | diverge => rw [hencode] at hspec; exact hspec

/-! ## Decoding and moving -/

theorem decodeAs_spec (P : Type) [Packet P] [TotalPacket P] (env : Env) (frame : RawPacket)
    (s : Connection) :
    (Connection.decodeAs P env frame s).Satisfies
      (fun p s' => Packet.decode env.target frame.body = .ok p [] ∧ s' = s)
      (fun _ s' => s' = s ∧ ∀ p : P, Packet.decode env.target frame.body ≠ .ok p []) := by
  have htotal := TotalPacket.decode_total (P := P) env.target frame.body
  apply Exec.mapError_spec
  unfold RawPacket.decodeAs
  rw [Exec.bind_apply, Exec.locally]
  cases hdecode : (Packet.decode env.target frame.body : Outcome ProtocolError Bytes P) with
  | ok p rest =>
      dsimp only [Outcome.bind_ok]
      rw [Exec.ite_apply]
      by_cases hrest : rest.length ≠ 0
      · rw [if_pos hrest]
        refine ⟨rfl, fun p' heq => ?_⟩
        rw [(Outcome.ok.inj heq).2] at hrest
        exact hrest rfl
      · rw [if_neg hrest]
        obtain rfl := List.eq_nil_of_length_eq_zero (not_not.mp hrest)
        exact ⟨rfl, rfl⟩
  | error e rest => exact ⟨rfl, fun p heq => by cases heq⟩
  | panic => rw [hdecode] at htotal; exact htotal
  | diverge => rw [hdecode] at htotal; exact htotal

theorem transition_spec (target : State) (s : Connection) :
    (Connection.transition target s).Satisfies
      (fun _ s' => ConnectionState.permitted s.state.current target = true ∧
        Effect s s' { s.state with current := target } [] s.codec.compressionThreshold)
      (fun _ s' => ConnectionState.permitted s.state.current target = false ∧ s' = s) := by
  simp only [Connection.transition, Exec.bind_apply, Exec.state_apply, Outcome.bind_ok,
    ConnectionState.transition]
  by_cases hpermitted : ConnectionState.permitted s.state.current target = true
  · rw [if_pos hpermitted]
    exact ⟨hpermitted, rfl, rfl, (List.append_nil _).symm, rfl⟩
  · rw [if_neg hpermitted]
    exact ⟨Bool.not_eq_true _ ▸ hpermitted, rfl⟩

/-! ## Answering a login request -/

/-- The frame is a `LoginStart` for a name the server accepts. -/
def Accepts (env : Env) (frame : RawPacket) (start : LoginStart) : Prop :=
  Packet.decode env.target frame.body = .ok start [] ∧ validateUsername start.name = .ok ()

/-- The `SetCompression` that a login announces, if compression is configured. -/
def compressionEntries (s : Connection) : List Emitted :=
  match s.config.compressionThreshold with
  | some threshold => [⟨.setCompression { threshold }, s.codec.compressionThreshold⟩]
  | none => []

/-- The compression setting a login leaves behind. -/
def negotiated (s : Connection) : Option Int32 :=
  match s.config.compressionThreshold with
  | some threshold => (s.codec.setCompression threshold).compressionThreshold
  | none => s.codec.compressionThreshold

/-- The answer to an accepted `LoginStart`. -/
def loginSuccessFor (env : Env) (name : String) : LoginSuccess :=
  let uuid := offlineUuid env.md5 name
  { profile := { uuid, username := name, properties := [] }, sessionId := uuid }

/-- Everything that is sent in answer to an accepted `LoginStart`. -/
def loginEntries (env : Env) (s : Connection) (start : LoginStart) : List Emitted :=
  compressionEntries s ++ [⟨.loginSuccess (loginSuccessFor env start.name), negotiated s⟩]

theorem negotiateCompression_spec (env : Env) (s : Connection) :
    (Connection.negotiateCompression env s).Satisfies
      (fun _ s' => Effect s s' s.state (compressionEntries s) (negotiated s))
      (fun _ s' => ∃ entries threshold, entries <+: compressionEntries s ∧
        Effect s s' s.state entries threshold) := by
  simp only [Connection.negotiateCompression, Exec.bind_apply, Exec.state_apply, Outcome.bind_ok,
    compressionEntries, negotiated]
  cases s.config.compressionThreshold with
  | none => exact Effect.refl s
  | some threshold =>
      dsimp only
      refine (send_spec env _ s).seq ?_ ?_
      · intro e s' hpost
        obtain ⟨entries, hentries, heffect⟩ := hpost
        exact ⟨entries, _, hentries, heffect⟩
      · intro _ s' heffect
        exact ⟨heffect.config, heffect.state, heffect.sent, rfl⟩

/-! ## Steps -/

/-- The state that a handshake asks for. A transferred client is mid-login. -/
def askedState : NextState → State
  | .status => .status
  | .login => .login
  | .transfer => .login

theorem askedState_cases (next : NextState) : askedState next = .status ∨ askedState next = .login := by
  cases next with
  | status => exact Or.inl rfl
  | login => exact Or.inr rfl
  | transfer => exact Or.inr rfl

/-- The text a client with an unacceptable name is refused with. -/
def refusal : TextComponent := .new "Invalid username. Use 1-16 characters of A-Z, a-z, 0-9 or _."

/-- Everything that handling `frame` can do to `s`. The flag says whether the connection goes on. A send
    that fails may have logged its packet or not, so the packets of a step that ends the connection are
    some first part of the packets it was to send. -/
inductive Step (env : Env) (s : Connection) (frame : RawPacket) : Bool → Connection → Prop where
  /-- A handshake moves the connection on. -/
  | handshake {s' : Connection} (handshake : Handshake) (hstate : s.state.current = .handshaking)
      (hid : frame.id = Packet.id Handshake)
      (hdecode : Packet.decode env.target frame.body = .ok handshake [])
      (heffect : Effect s s' { s.state with current := askedState handshake.nextState } []
        s.codec.compressionThreshold) : Step env s frame true s'
  /-- A first status request is recorded and answered. -/
  | statusRequest {live : Bool} {s' : Connection} {entries : List Emitted} (json : String)
      (hstate : s.state.current = .status) (hid : frame.id = Packet.id StatusRequest)
      (hseen : s.state.statusRequestSeen = false)
      (hentries : entries <+: [⟨.statusResponse { json }, s.codec.compressionThreshold⟩])
      (hlive : live = true → entries = [⟨.statusResponse { json }, s.codec.compressionThreshold⟩])
      (heffect : Effect s s' { s.state with statusRequestSeen := true } entries s.codec.compressionThreshold) :
      Step env s frame live s'
  /-- A ping is echoed, and the connection closed. -/
  | ping {s' : Connection} {entries : List Emitted} (ping : PingRequest)
      (hstate : s.state.current = .status) (hid : frame.id = Packet.id PingRequest)
      (hdecode : Packet.decode env.target frame.body = .ok ping [])
      (hentries : entries <+: [⟨.pongResponse { payload := ping.payload }, s.codec.compressionThreshold⟩])
      (heffect : Effect s s' s.state entries s.codec.compressionThreshold) : Step env s frame false s'
  /-- An accepted `LoginStart` is answered, or the connection fails on the way. -/
  | loginStart {live : Bool} {s' : Connection} {entries : List Emitted} {threshold : Option Int32}
      (start : LoginStart) (hstate : s.state.current = .login) (hid : frame.id = Packet.id LoginStart)
      (haccepts : Accepts env frame start) (hentries : entries <+: loginEntries env s start)
      (hlive : live = true → entries = loginEntries env s start ∧ threshold = negotiated s)
      (heffect : Effect s s' s.state entries threshold) : Step env s frame live s'
  /-- A `LoginStart` with an unacceptable name is refused with a text. -/
  | loginRefused {s' : Connection} {entries : List Emitted} (start : LoginStart) (reason : String)
      (hstate : s.state.current = .login) (hid : frame.id = Packet.id LoginStart)
      (hdecode : Packet.decode env.target frame.body = .ok start [])
      (hinvalid : validateUsername start.name ≠ .ok ()) (hreason : env.textToJson refusal = .ok reason)
      (hentries : entries <+: [⟨.loginDisconnect { reason }, s.codec.compressionThreshold⟩])
      (heffect : Effect s s' s.state entries s.codec.compressionThreshold) : Step env s frame false s'
  /-- An acknowledgement enters the configuration state. -/
  | loginAcknowledged {s' : Connection} (hstate : s.state.current = .login)
      (hid : frame.id = Packet.id LoginAcknowledged)
      (heffect : Effect s s' { s.state with current := .configuration } [] s.codec.compressionThreshold) :
      Step env s frame true s'
  /-- Any other frame is refused and changes nothing. -/
  | refused
      (hhandshake : ∀ handshake : Handshake, s.state.current = .handshaking →
        frame.id = Packet.id Handshake → Packet.decode env.target frame.body ≠ .ok handshake [])
      (hstart : ∀ start, s.state.current = .login → frame.id = Packet.id LoginStart →
        ¬ Accepts env frame start)
      (hack : s.state.current = .login → frame.id ≠ Packet.id LoginAcknowledged) : Step env s frame false s

/-- A refusal outside the states that the guards of `Step.refused` are about. -/
theorem Step.refused_of_status {env : Env} {s : Connection} {frame : RawPacket}
    (hstate : s.state.current = .status) : Step env s frame false s := by
  have hne : ∀ state, state ≠ .status → s.state.current ≠ state := by
    intro state hne heq
    exact hne (heq.symm.trans hstate)
  exact .refused (fun _ h => absurd h (hne _ (by decide))) (fun _ h => absurd h (hne _ (by decide)))
    fun h => absurd h (hne _ (by decide))

/-- Refusing a frame of the handshake or the login. -/
theorem Step.refused_of_handshaking {env : Env} {s : Connection} {frame : RawPacket}
    (hstate : s.state.current = .handshaking)
    (h : ∀ handshake : Handshake, frame.id = Packet.id Handshake →
      Packet.decode env.target frame.body ≠ .ok handshake []) : Step env s frame false s := by
  have hne : s.state.current ≠ .login := by
    rw [hstate]
    decide
  exact .refused (fun handshake _ => h handshake) (fun _ h => absurd h hne) fun h => absurd h hne

theorem Step.refused_of_login {env : Env} {s : Connection} {frame : RawPacket}
    (hstate : s.state.current = .login)
    (hstart : ∀ start, frame.id = Packet.id LoginStart → ¬ Accepts env frame start)
    (hack : frame.id ≠ Packet.id LoginAcknowledged) : Step env s frame false s := by
  refine .refused (fun handshake h => ?_) (fun start _ => hstart start) fun _ => hack
  rw [hstate] at h
  cases h

/-- A step in the handshaking state: a valid handshake moves on, and everything else is refused. -/
theorem Step.of_handshaking {env : Env} {s s' : Connection} {frame : RawPacket} {live : Bool}
    (h : Step env s frame live s') (hstate : s.state.current = .handshaking) :
    (∃ handshake : Handshake, frame.id = Packet.id Handshake ∧
      Packet.decode env.target frame.body = .ok handshake [] ∧
      Effect s s' { s.state with current := askedState handshake.nextState } []
        s.codec.compressionThreshold) ∨
    (s' = s ∧ ∀ handshake : Handshake, frame.id = Packet.id Handshake →
      Packet.decode env.target frame.body ≠ .ok handshake []) := by
  cases h with
  | handshake handshake _ hid hdecode heffect => exact Or.inl ⟨handshake, hid, hdecode, heffect⟩
  | refused hhandshake _ _ => exact Or.inr ⟨rfl, fun handshake hid => hhandshake handshake hstate hid⟩
  | statusRequest json hstatus _ _ _ _ _ => cases hstatus.symm.trans hstate
  | ping ping hstatus _ _ _ _ => cases hstatus.symm.trans hstate
  | loginStart start hlogin _ _ _ _ _ => cases hlogin.symm.trans hstate
  | loginRefused start reason hlogin _ _ _ _ _ _ => cases hlogin.symm.trans hstate
  | loginAcknowledged hlogin _ _ => cases hlogin.symm.trans hstate

/-- Where a step leads: it stays, leaves the handshake, or leaves the login. -/
theorem Step.current {env : Env} {s s' : Connection} {frame : RawPacket} {live : Bool}
    (h : Step env s frame live s') :
    s'.state.current = s.state.current ∨
    (s.state.current = .handshaking ∧ (s'.state.current = .status ∨ s'.state.current = .login)) ∨
    (s.state.current = .login ∧ s'.state.current = .configuration) := by
  cases h with
  | handshake handshake hstate _ _ heffect =>
      refine Or.inr (Or.inl ⟨hstate, ?_⟩)
      rw [heffect.state]
      exact askedState_cases handshake.nextState
  | statusRequest json _ _ _ _ _ heffect => exact Or.inl (by rw [heffect.state])
  | ping ping _ _ _ _ heffect => exact Or.inl (by rw [heffect.state])
  | loginStart start _ _ _ _ _ heffect => exact Or.inl (by rw [heffect.state])
  | loginRefused start reason _ _ _ _ _ _ heffect => exact Or.inl (by rw [heffect.state])
  | loginAcknowledged hstate _ heffect => exact Or.inr (Or.inr ⟨hstate, by rw [heffect.state]⟩)
  | refused _ _ _ => exact Or.inl rfl

theorem handleHandshake_step (env : Env) (frame : RawPacket) (s : Connection)
    (hstate : s.state.current = .handshaking) (hid : frame.id = Packet.id Handshake) :
    (Connection.handleHandshake env frame s).Satisfies
      (fun flow s' => Step env s frame (flow == .proceed) s') (fun _ s' => Step env s frame false s') := by
  refine (decodeAs_spec Handshake env frame s).seq ?_ ?_
  · intro e s' hpost
    obtain ⟨rfl, hnot⟩ := hpost
    exact .refused_of_handshaking hstate fun handshake _ => hnot handshake
  intro handshake s₁ hpost
  obtain ⟨hdecode, rfl⟩ := hpost
  have hmove : ((Connection.transition (askedState handshake.nextState) >>= fun _ => pure .proceed :
      Exec NetError Connection Flow) s₁).Satisfies
      (fun flow s' => Step env s₁ frame (flow == .proceed) s') (fun _ s' => Step env s₁ frame false s') := by
    refine (transition_spec _ s₁).seq ?_ ?_
    · intro e s' hpost
      obtain ⟨hpermitted, -⟩ := hpost
      -- both moves out of the handshake are legal
      rw [hstate] at hpermitted
      rcases askedState_cases handshake.nextState with hasked | hasked
      · rw [hasked] at hpermitted
        cases hpermitted
      · rw [hasked] at hpermitted
        cases hpermitted
    · intro u s' hpost
      obtain ⟨-, heffect⟩ := hpost
      exact .handshake handshake hstate hid hdecode heffect
  cases hnext : handshake.nextState with
  | status => rw [hnext] at hmove; exact hmove
  | login => rw [hnext] at hmove; exact hmove
  | transfer => rw [hnext] at hmove; exact hmove

theorem handleStatusRequest_step (env : Env) (frame : RawPacket) (s : Connection)
    (hstate : s.state.current = .status) (hid : frame.id = Packet.id StatusRequest) :
    (Connection.handleStatusRequest env s).Satisfies
      (fun flow s' => Step env s frame (flow == .proceed) s') (fun _ s' => Step env s frame false s') := by
  simp only [Connection.handleStatusRequest, Exec.bind_apply, Exec.state_apply, Outcome.bind_ok,
    ConnectionState.markStatusRequestSeen]
  by_cases hseen : s.state.statusRequestSeen = true
  · rw [if_pos hseen]
    exact .refused_of_status hstate
  rw [if_neg hseen]
  have hfirst : s.state.statusRequestSeen = false := Bool.not_eq_true _ ▸ hseen
  have heffect₁ : Effect s { s with state := { s.state with statusRequestSeen := true } }
      { s.state with statusRequestSeen := true } [] s.codec.compressionThreshold :=
    ⟨rfl, rfl, (List.append_nil _).symm, rfl⟩
  simp only [Exec.ofExcept_ok, Exec.pure_apply, Outcome.bind_ok, Exec.bind_apply, Exec.setState_apply]
  cases env.statusToJson (StatusResponseJson.new s.config.motd s.config.maxPlayers 0) with
  | error reason => exact .statusRequest "" hstate hid hfirst List.nil_prefix (fun h => nomatch h) heffect₁
  | ok json =>
      show ((Connection.send env (.statusResponse { json }) _).bind _).Satisfies _ _
      refine (send_spec env (.statusResponse { json }) _).seq ?_ ?_
      · intro e s' hpost
        obtain ⟨entries, hentries, heffect⟩ := hpost
        exact .statusRequest json hstate hid hfirst hentries (fun h => nomatch h) (heffect₁.trans heffect)
      · intro _ s' heffect
        exact .statusRequest json hstate hid hfirst List.prefix_rfl (fun _ => rfl) (heffect₁.trans heffect)

theorem handlePing_step (env : Env) (frame : RawPacket) (s : Connection)
    (hstate : s.state.current = .status) (hid : frame.id = Packet.id PingRequest) :
    (Connection.handlePing env frame s).Satisfies
      (fun flow s' => Step env s frame (flow == .proceed) s') (fun _ s' => Step env s frame false s') := by
  refine (decodeAs_spec PingRequest env frame s).seq ?_ ?_
  · intro e s' hpost
    obtain ⟨rfl, -⟩ := hpost
    exact .refused_of_status hstate
  intro ping s₁ hpost
  obtain ⟨hdecode, rfl⟩ := hpost
  refine (send_spec env _ s₁).seq ?_ ?_
  · intro e s' hpost
    obtain ⟨entries, hentries, heffect⟩ := hpost
    exact .ping ping hstate hid hdecode hentries heffect
  · intro _ s' heffect
    exact .ping ping hstate hid hdecode List.prefix_rfl heffect

/-- A login request: an accepted one is answered, in full if nothing fails. -/
theorem handleLoginStart_step (env : Env) (frame : RawPacket) (s : Connection)
    (hstate : s.state.current = .login) (hid : frame.id = Packet.id LoginStart) :
    (Connection.handleLoginStart env frame s).Satisfies
      (fun flow s' => Step env s frame (flow == .proceed) s') (fun _ s' => Step env s frame false s') := by
  have hack : frame.id ≠ Packet.id LoginAcknowledged := by
    rw [hid]
    decide
  unfold Connection.handleLoginStart
  rw [Exec.bind_apply]
  refine (decodeAs_spec LoginStart env frame s).seq ?_ ?_
  · intro e s' hpost
    obtain ⟨rfl, hnot⟩ := hpost
    exact .refused_of_login hstate (fun start _ haccepts => hnot start haccepts.1) hack
  intro start s' hpost
  obtain ⟨hdecode, rfl⟩ := hpost
  cases hvalid : validateUsername start.name with
  | error error =>
      have hinvalid : validateUsername start.name ≠ .ok () := by
        rw [hvalid]
        exact fun h => nomatch h
      -- the disconnect packet, then the error
      dsimp only
      rw [Exec.bind_apply]
      show ((Exec.mapError .protocol (Exec.ofExcept (LoginDisconnect.fromComponent env.textToJson refusal)) :
        Exec NetError Connection LoginDisconnect) s' |>.bind _).Satisfies _ _
      unfold LoginDisconnect.fromComponent
      cases hreason : env.textToJson refusal with
      | error e =>
          have hstart : ∀ start, frame.id = Packet.id LoginStart → ¬ Accepts env frame start := by
            intro start' _ haccepts
            obtain ⟨rfl, -⟩ := Outcome.ok.inj (hdecode.symm.trans haccepts.1)
            exact hinvalid haccepts.2
          exact .refused_of_login hstate hstart hack
      | ok reason =>
          show (((Connection.send env (.loginDisconnect { reason })) s').bind _).Satisfies _ _
          refine (send_spec env _ s').seq ?_ ?_
          · intro e s₁ hpost
            obtain ⟨entries, hentries, heffect⟩ := hpost
            exact .loginRefused start reason hstate hid hdecode hinvalid hreason hentries heffect
          · intro _ s₁ heffect
            exact .loginRefused start reason hstate hid hdecode hinvalid hreason List.prefix_rfl heffect
  | ok u =>
      have haccepts : Accepts env frame start := ⟨hdecode, hvalid⟩
      dsimp only
      rw [Exec.bind_apply]
      refine (negotiateCompression_spec env s').seq ?_ ?_
      · intro e s₁ hpost
        obtain ⟨entries, threshold, hentries, heffect⟩ := hpost
        exact .loginStart start hstate hid haccepts (hentries.trans (List.prefix_append _ _))
          (fun h => nomatch h) heffect
      intro _ s₁ hnegotiated
      rw [Exec.bind_apply]
      refine (send_spec env _ s₁).seq ?_ ?_
      · intro e s₂ hpost
        obtain ⟨entries, hentries, heffect⟩ := hpost
        rw [hnegotiated.state, hnegotiated.threshold] at heffect
        rw [hnegotiated.threshold] at hentries
        exact .loginStart start hstate hid haccepts ((List.prefix_append_right_inj _).mpr hentries)
          (fun h => nomatch h) (hnegotiated.trans heffect)
      · intro _ s₂ heffect
        rw [hnegotiated.state, hnegotiated.threshold] at heffect
        exact .loginStart start hstate hid haccepts List.prefix_rfl (fun _ => ⟨rfl, rfl⟩)
          (hnegotiated.trans heffect)

theorem handleLoginAcknowledged_step (env : Env) (frame : RawPacket) (s : Connection)
    (hstate : s.state.current = .login) (hid : frame.id = Packet.id LoginAcknowledged) :
    (Connection.handleLoginAcknowledged s).Satisfies
      (fun flow s' => Step env s frame (flow == .proceed) s') (fun _ s' => Step env s frame false s') := by
  refine (transition_spec .configuration s).seq ?_ ?_
  · intro e s' hpost
    obtain ⟨hpermitted, -⟩ := hpost
    rw [hstate] at hpermitted
    cases hpermitted
  · intro u s' hpost
    obtain ⟨-, heffect⟩ := hpost
    exact .loginAcknowledged hstate hid heffect

/-- **What handling a frame can do**, for every state and every frame. -/
theorem handle_step (env : Env) (frame : RawPacket) (s : Connection) :
    (Connection.handle env frame s).Satisfies
      (fun flow s' => Step env s frame (flow == .proceed) s') (fun _ s' => Step env s frame false s') := by
  cases hselected : selected s.state.current frame.id with
  | none =>
      rw [handle_of_not_selected hselected]
      -- whatever the guards ask about would have been selected
      have hnone : ∀ kind : Serverbound, s.state.current = kind.state → frame.id ≠ kind.id := by
        intro kind hstate hid
        rw [selected_iff.mpr ⟨hstate, hid⟩] at hselected
        cases hselected
      exact .refused (fun _ hstate hid => absurd hid (hnone .handshake hstate))
        (fun _ hstate hid => absurd hid (hnone .loginStart hstate)) (hnone .loginAcknowledged)
  | some kind =>
      obtain ⟨hstate, hid⟩ := selected_iff.mp hselected
      rw [handle_of_selected hselected]
      cases kind with
      | handshake => exact handleHandshake_step env frame s hstate hid
      | statusRequest => exact handleStatusRequest_step env frame s hstate hid
      | pingRequest => exact handlePing_step env frame s hstate hid
      | loginStart => exact handleLoginStart_step env frame s hstate hid
      | loginAcknowledged => exact handleLoginAcknowledged_step env frame s hstate hid

end Pyrite.Net
