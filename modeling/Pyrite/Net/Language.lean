import Pyrite.Net.Exchange

set_option autoImplicit false

/-! # What a server can say

The packets that a connection sends over its lifetime, as a language: which sequences of packets there are
that some client can make the server send, when the transport takes everything. A connection is a status
exchange or a login. A status exchange has at most one status document and at most one echo of a ping, in
this order. A login is any number of answers to names that are acceptable, and at most one refusal, at its
end. -/

namespace Pyrite.Net

open Wire Protocol

variable {env : Env} {config : ServerConfig} {s : Connection}

/-! ## The language -/

/-- The status document of a server, if it can be serialised and framed. -/
def StatusDocument (env : Env) (config : ServerConfig) (packet : Clientbound) : Prop :=
  ∃ json, env.statusToJson (StatusResponseJson.new config.motd config.maxPlayers 0) = .ok json ∧
    packet = .statusResponse { json } ∧ packet.bytes.length ≤ maxPacketSize

/-- The answer to an acceptable name. -/
def loginAnswer (env : Env) (config : ServerConfig) (name : String) : List Clientbound :=
  announcement config ++ [.loginSuccess (loginSuccessFor env name)]

/-- The answers to names that are acceptable, one after the other. -/
def LoginAnswers (env : Env) (config : ServerConfig) (packets : List Clientbound) : Prop :=
  ∃ names : List String, (∀ name ∈ names, NameValid name) ∧ packets = names.flatMap (loginAnswer env config)

/-- Nothing, or one packet. -/
def AtMostOne (P : Clientbound → Prop) (packets : List Clientbound) : Prop :=
  packets = [] ∨ ∃ packet, P packet ∧ packets = [packet]

inductive Dialogue (env : Env) (config : ServerConfig) : List Clientbound → Prop where
  | status {first last : List Clientbound} (hfirst : AtMostOne (StatusDocument env config) first)
      (hlast : AtMostOne (fun packet => ∃ payload, packet = .pongResponse { payload }) last) :
      Dialogue env config (first ++ last)
  | login {answers last : List Clientbound} (hanswers : LoginAnswers env config answers)
      (hlast : AtMostOne (fun packet => ∃ reason, env.textToJson refusal = .ok reason ∧
        packet = .loginDisconnect { reason }) last) :
      Dialogue env config (answers ++ last)

theorem AtMostOne.none {P : Clientbound → Prop} : AtMostOne P [] := Or.inl rfl

theorem dialogue_nil : Dialogue env config [] := .status .none .none

/-! ## Every run is in the language -/

/-- The packets that were sent. -/
def Connection.said (s : Connection) : List Clientbound := s.sent.map (·.packet)

/-- What a connection has said so far, by where it is. The flag says whether it goes on. -/
inductive Said (env : Env) (config : ServerConfig) : Bool → Connection → Prop where
  | greeting {s : Connection} (hstate : s.state = ⟨.handshaking, false⟩) (hsaid : s.said = []) :
      Said env config true s
  | status {s : Connection} (hstate : s.state.current = .status)
      (hsaid : AtMostOne (StatusDocument env config) s.said)
      (hfirst : s.state.statusRequestSeen = false → s.said = []) : Said env config true s
  | login {s : Connection} (hstate : s.state.current = .login ∨ s.state.current = .configuration)
      (hsaid : LoginAnswers env config s.said) : Said env config true s
  | ended {s : Connection} (hsaid : Dialogue env config s.said) : Said env config false s

theorem Said.dialogue {live : Bool} (h : Said env config live s) : Dialogue env config s.said := by
  cases h with
  | greeting hstate hsaid =>
      rw [hsaid]
      exact dialogue_nil
  | status hstate hsaid hfirst =>
      rw [← List.append_nil s.said]
      exact .status hsaid .none
  | login hstate hsaid =>
      rw [← List.append_nil s.said]
      exact .login hsaid .none
  | ended hsaid => exact hsaid

/-- A connection that fails without sending anything. -/
theorem Said.fail {s' : Connection} {live : Bool} (h : Said env config live s) (hsent : s'.sent = s.sent) :
    Said env config false s' := by
  have hsaid : s'.said = s.said := by rw [Connection.said, hsent, Connection.said]
  exact .ended (hsaid ▸ h.dialogue)

theorem said_append {s' : Connection} {entries : List Emitted} (h : s'.sent = s.sent ++ entries) :
    s'.said = s.said ++ entries.map (·.packet) := by
  rw [Connection.said, h, List.map_append, Connection.said]

theorem said_wrote (codec : PacketCodec) (packet : Clientbound) (payload : Bytes) :
    (s.wrote codec packet payload).said = s.said ++ [packet] := by
  simp [Connection.said, Connection.wrote]

/-- With a transport that takes everything, a packet that is not too large is sent, and nothing is sent of
    another one. -/
theorem send_said (henv : Reliable env) (packet : Clientbound) (s : Connection) :
    (packet.bytes.length ≤ maxPacketSize ∧
      ∃ codec p, Connection.send env packet s = .ok () (s.wrote codec packet p)) ∨
    ∃ e codec, Connection.send env packet s = .error e { s with codec } := by
  obtain ⟨codec, -, ⟨p, hframe, -, hsend⟩ | ⟨p, reason, -, hflush, -⟩ | ⟨e, -, hsend⟩⟩ := send_cases env packet s
  · exact Or.inl ⟨(Clientbound.frame_ok hframe).1, codec, p, hsend⟩
  · rw [henv.flush] at hflush
    cases hflush
  · exact Or.inr ⟨_, codec, hsend⟩

/-- What a handler says. -/
def Tells (env : Env) (config : ServerConfig) (outcome : Outcome NetError Connection Flow) : Prop :=
  outcome.Satisfies (fun flow s' => Said env config (flow == .proceed) s') fun _ s' => Said env config false s'

theorem tells_greeting (frame : RawPacket) (hstate : s.state = ⟨.handshaking, false⟩) (hsaid : s.said = []) :
    Tells env config (Connection.handle env frame s) := by
  have hsays : ∀ live s', Step env s frame live s' → Said env config live s' := by
    intro live s' hstep
    rcases hstep.of_handshaking (by rw [hstate]) with ⟨handshake, -, -, heffect⟩ | ⟨rfl, -⟩
    · have hsaid' : s'.said = [] := by rw [said_append heffect.sent, hsaid, List.map_nil, List.append_nil]
      have hstate' : s'.state = ⟨askedState handshake.nextState, false⟩ := by rw [heffect.state, hstate]
      cases live with
      | false => exact .ended (hsaid' ▸ dialogue_nil)
      | true =>
          rcases askedState_cases handshake.nextState with hasked | hasked
          · exact .status (by rw [hstate', hasked]) (Or.inl hsaid') fun _ => hsaid'
          · exact .login (Or.inl (by rw [hstate', hasked])) ⟨[], by simp, hsaid'⟩
    · cases live with
      | false => exact .ended (hsaid ▸ dialogue_nil)
      | true => exact .greeting hstate hsaid
  exact (handle_step env frame s).mono (fun _ _ => hsays _ _) fun _ _ => hsays _ _

theorem tells_status (henv : Reliable env) (frame : RawPacket) (hconfig : s.config = config)
    (hstate : s.state.current = .status) (hsaid : AtMostOne (StatusDocument env config) s.said)
    (hfirst : s.state.statusRequestSeen = false → s.said = []) :
    Tells env config (Connection.handle env frame s) := by
  have hnow : Said env config true s := .status hstate hsaid hfirst
  by_cases hrequest : frame.id = Packet.id StatusRequest
  · cases hseen : s.state.statusRequestSeen with
    | true =>
        rw [handle_duplicateStatusRequest hstate hrequest hseen]
        exact hnow.fail rfl
    | false =>
        rw [handle_statusRequest_eq hstate hrequest hseen]
        cases hjson : env.statusToJson (StatusResponseJson.new s.config.motd s.config.maxPlayers 0) with
        | error reason => exact hnow.fail rfl
        | ok json =>
            show Tells env config ((Connection.send env (.statusResponse { json })
              { s with state := ⟨.status, true⟩ }).bind _)
            rcases send_said henv (.statusResponse { json }) { s with state := ⟨.status, true⟩ } with
              ⟨hsmall, codec, p, hsend⟩ | ⟨e, codec, hsend⟩
            · rw [hsend]
              have hdocument : StatusDocument env config (.statusResponse { json }) :=
                ⟨json, hconfig ▸ hjson, rfl, hsmall⟩
              refine .status rfl (Or.inr ⟨_, hdocument, ?_⟩) fun hunseen => by cases hunseen
              have hnothing := hfirst hseen
              simp only [Connection.said, Connection.wrote, List.map_append] at hnothing ⊢
              rw [hnothing]
              rfl
            · rw [hsend]
              exact hnow.fail rfl
  by_cases hping : frame.id = Packet.id PingRequest
  · by_cases hdecodes : DecodesAs PingRequest env.target frame.body
    · obtain ⟨ping, hdecode⟩ := hdecodes
      rw [handle_ping_eq hstate hping hdecode]
      show Tells env config ((Connection.send env (.pongResponse { payload := ping.payload }) s).bind _)
      rcases send_said henv (.pongResponse { payload := ping.payload }) s with
        ⟨-, codec, p, hsend⟩ | ⟨e, codec, hsend⟩
      · rw [hsend]
        have hecho : AtMostOne (fun packet => ∃ payload, packet = .pongResponse { payload })
            [.pongResponse { payload := ping.payload }] := Or.inr ⟨_, ⟨ping.payload, rfl⟩, rfl⟩
        refine .ended ?_
        rw [said_wrote]
        exact .status hsaid hecho
      · rw [hsend]
        exact hnow.fail rfl
    · rw [handle_of_selected (selected_iff.mpr ⟨hstate, hping⟩ : _ = some .pingRequest)]
      obtain ⟨e, heq⟩ : ∃ e, Serverbound.handler env frame .pingRequest s = .error e s :=
        decodeAs_bind_of_not hdecodes _ s
      rw [heq]
      exact hnow.fail rfl
  · rw [handle_of_not_selected (by rw [hstate]; simp [selected, hrequest, hping])]
    exact hnow.fail rfl

theorem LoginAnswers.concat {packets : List Clientbound} (h : LoginAnswers env config packets) {name : String}
    (hname : NameValid name) : LoginAnswers env config (packets ++ loginAnswer env config name) := by
  obtain ⟨names, hvalid, rfl⟩ := h
  refine ⟨names ++ [name], ?_, by simp⟩
  intro name' hmem
  rcases List.mem_append.mp hmem with hbefore | hlast
  · exact hvalid name' hbefore
  · rw [List.mem_singleton.mp hlast]
    exact hname

/-- A refusal, or no refusal where it cannot be written. -/
theorem tells_refused (henv : Reliable env) {frame : RawPacket} {start : LoginStart}
    (hstate : s.state.current = .login) (hcarries : Carries env frame start) (hname : ¬ NameValid start.name)
    (hsaid : LoginAnswers env config s.said) : Tells env config (Connection.handle env frame s) := by
  have hnow : Said env config true s := .login (Or.inl hstate) hsaid
  rw [handle_loginRefused_eq hstate hcarries hname]
  cases hreason : env.textToJson refusal with
  | error reason =>
      simp only [LoginDisconnect.fromComponent, hreason]
      exact hnow.fail rfl
  | ok reason =>
      simp only [LoginDisconnect.fromComponent, hreason]
      show Tells env config ((Connection.send env (.loginDisconnect { reason }) s).bind _)
      rcases send_said henv (.loginDisconnect { reason }) s with ⟨-, codec, p, hsend⟩ | ⟨e, codec, hsend⟩
      · rw [hsend]
        have hlast : AtMostOne (fun packet => ∃ reason, env.textToJson refusal = .ok reason ∧
            packet = .loginDisconnect { reason }) [.loginDisconnect { reason }] :=
          Or.inr ⟨_, ⟨reason, hreason, rfl⟩, rfl⟩
        refine .ended ?_
        rw [said_wrote]
        exact .login hsaid hlast
      · rw [hsend]
        exact hnow.fail rfl

theorem tells_login (henv : Reliable env) (frame : RawPacket) (hconfig : s.config = config)
    (hstate : s.state.current = .login ∨ s.state.current = .configuration)
    (hsaid : LoginAnswers env config s.said) : Tells env config (Connection.handle env frame s) := by
  have hnow : Said env config true s := .login hstate hsaid
  rcases hstate with hstate | hstate
  · by_cases hstart : frame.id = Packet.id LoginStart
    · by_cases hdecodes : DecodesAs LoginStart env.target frame.body
      · obtain ⟨start, hdecode⟩ := hdecodes
        have hcarries : Carries env frame start := ⟨hstart, hdecode⟩
        by_cases hname : NameValid start.name
        · obtain ⟨s', more, hhandle, hstate', -, -, hsent, -⟩ := login_answered henv hstate hcarries hname
          rw [hhandle]
          refine .login (Or.inl hstate') ?_
          rw [said_append hsent, loginEntries_packets, hconfig]
          exact hsaid.concat hname
        · exact tells_refused henv hstate hcarries hname hsaid
      · rw [handle_of_selected (selected_iff.mpr ⟨hstate, hstart⟩ : _ = some .loginStart)]
        obtain ⟨e, heq⟩ : ∃ e, Serverbound.handler env frame .loginStart s = .error e s :=
          decodeAs_bind_of_not hdecodes _ s
        rw [heq]
        exact hnow.fail rfl
    by_cases hack : frame.id = Packet.id LoginAcknowledged
    · rw [handle_acknowledged hstate hack]
      exact .login (Or.inr rfl) hsaid
    · rw [handle_of_not_selected (by rw [hstate]; simp [selected, hstart, hack])]
      exact hnow.fail rfl
  · rw [handle_of_not_selected (by rw [hstate]; rfl)]
    exact hnow.fail rfl

theorem handle_tells (henv : Reliable env) (frame : RawPacket) (hconfig : s.config = config)
    (h : Said env config true s) : Tells env config (Connection.handle env frame s) := by
  cases h with
  | greeting hstate hsaid => exact tells_greeting frame hstate hsaid
  | status hstate hsaid hfirst => exact tells_status henv frame hconfig hstate hsaid hfirst
  | login hstate hsaid => exact tells_login henv frame hconfig hstate hsaid

theorem Step.same_config {frame : RawPacket} {live : Bool} {s' : Connection} (h : Step env s frame live s') :
    s'.config = s.config := by
  cases h with
  | handshake _ _ _ _ heffect => exact heffect.config
  | statusRequest _ _ _ _ _ _ heffect => exact heffect.config
  | ping _ _ _ _ _ heffect => exact heffect.config
  | loginStart _ _ _ _ _ _ heffect => exact heffect.config
  | loginRefused _ _ _ _ _ _ _ _ heffect => exact heffect.config
  | loginAcknowledged _ _ heffect => exact heffect.config
  | refused _ _ _ => rfl

theorem Run.same_config {history : List (Connection × RawPacket)} {live : Bool} (h : Run env config history live s) :
    s.config = config := by
  refine Run.step_induction (P := fun _ _ s => s.config = config) rfl ?_ h
  intro history s frame live s' _ hconfig hstep
  rw [hstep.same_config, hconfig]

theorem Run.said (henv : Reliable env) {history : List (Connection × RawPacket)} {live : Bool}
    (h : Run env config history live s) : Said env config live s := by
  induction h with
  | fresh => exact .greeting rfl rfl
  | @proceed history s s' frame h heq ih =>
      have htells := handle_tells henv frame h.same_config ih
      rw [heq] at htells
      exact htells
  | @close history s s' frame h heq ih =>
      have htells := handle_tells henv frame h.same_config ih
      rw [heq] at htells
      exact htells
  | @fail history s s' frame e h heq ih =>
      have htells := handle_tells henv frame h.same_config ih
      rw [heq] at htells
      exact htells

/-! ## Everything in the language is said in a run -/

/-- A run that has come to `state` without compression, and has said `packets`. -/
def Reaches (env : Env) (config : ServerConfig) (state : ConnectionState) (packets : List Clientbound) : Prop :=
  ∃ history s, Run env config history true s ∧ s.state = state ∧ s.codec.compressionThreshold = none ∧
    s.said = packets

theorem reaches_asked (env : Env) (config : ServerConfig) (next : NextState) :
    Reaches env config ⟨askedState next, false⟩ [] := by
  have haddress : Capped maxServerAddressChars "" := Nat.zero_le _
  have hsmall : (wire (⟨776, "", 25565, next⟩ : Handshake)).length ≤ maxPacketSize :=
    le_trans (length_handshake_le haddress) (by decide)
  have hdecode := decode_wire roundTrips_handshake haddress hsmall env.target
  have hfresh : (Connection.new config).state.current = .handshaking := rfl
  have hid : (⟨Packet.id Handshake, PlainPacket.body (⟨776, "", 25565, next⟩ : Handshake)⟩ : RawPacket).id
      = Packet.id Handshake := rfl
  have hhandle := handle_handshake hfresh hid hdecode
  exact ⟨_, _, Run.fresh.proceed hhandle, rfl, rfl, rfl⟩

/-- The status document, or nothing. -/
theorem reaches_status (henv : Reliable env) {first : List Clientbound}
    (hfirst : AtMostOne (StatusDocument env config) first) :
    ∃ seen, Reaches env config ⟨.status, seen⟩ first := by
  have hasked := reaches_asked env config .status
  rcases hfirst with rfl | ⟨packet, ⟨json, hjson, rfl, hsmall⟩, rfl⟩
  · exact ⟨false, hasked⟩
  · obtain ⟨history, s, hrun, hstate, hplain, hsaid⟩ := hasked
    have hconfig := hrun.same_config
    have hframe : FramedAs env.zlib s.codec.compressionThreshold
        (Clientbound.statusResponse { json }).bytes (Clientbound.statusResponse { json }).bytes := by
      rw [hplain]
      exact framedAs_none hsmall
    obtain ⟨s', hhandle, hstate', hsame, -, hsent⟩ := handle_statusRequest henv s
      ⟨Packet.id StatusRequest, []⟩ json (by rw [hstate]; rfl) rfl (by rw [hstate]) (hconfig ▸ hjson) hframe
    refine ⟨true, _, s', hrun.proceed hhandle, hstate', hsame.trans hplain, ?_⟩
    rw [said_append hsent, hsaid]
    rfl

/-- Answers to any acceptable names. -/
theorem says_answers (henv : Reliable env) (config : ServerConfig) {names : List String}
    (hnames : ∀ name ∈ names, NameValid name) :
    ∃ history s, Run env config history true s ∧ s.state.current = .login ∧
      s.said = names.flatMap (loginAnswer env config) := by
  induction names using List.reverseRecOn with
  | nil =>
      obtain ⟨history, s, hrun, hstate, -, hsaid⟩ := reaches_asked env config .login
      exact ⟨history, s, hrun, by rw [hstate]; rfl, hsaid⟩
  | append_singleton names name ih =>
      obtain ⟨history, s, hrun, hstate, hsaid⟩ := ih fun name' hmem =>
        hnames name' (List.mem_append_left _ hmem)
      have hname : NameValid name := hnames name (by simp)
      have hcarries : Carries env ⟨Packet.id LoginStart, PlainPacket.body (⟨name, 0⟩ : LoginStart)⟩ ⟨name, 0⟩ :=
        carries_wire env hname
      obtain ⟨s', more, hhandle, hstate', -, -, hsent, -⟩ := login_answered henv hstate hcarries hname
      refine ⟨_, s', hrun.proceed hhandle, hstate', ?_⟩
      rw [said_append hsent, hsaid, loginEntries_packets, hrun.same_config]
      simp [loginAnswer]

theorem not_nameValid_empty : ¬ NameValid "" := by
  rintro ⟨hlength, -⟩
  exact absurd hlength (by decide)

/-- **What a server can say.** With a transport that takes everything, the sequences of packets that a
    connection can have sent, after any frames of the client, are exactly the dialogues. In particular a
    login can be repeated, and is then answered in full again. -/
theorem output_language (henv : Reliable env) (hshort : ShortLogins env) (config : ServerConfig)
    (packets : List Clientbound) :
    (∃ history live s, Run env config history live s ∧ s.sent.map (·.packet) = packets) ↔
      Dialogue env config packets := by
  constructor
  · rintro ⟨history, live, s, hrun, rfl⟩
    exact (hrun.said henv).dialogue
  · intro h
    cases h with
    | @status first last hfirst hlast =>
        obtain ⟨seen, history, s, hrun, hstate, hplain, hsaid⟩ := reaches_status henv hfirst
        rcases hlast with rfl | ⟨packet, ⟨payload, rfl⟩, rfl⟩
        · rw [List.append_nil]
          exact ⟨history, true, s, hrun, hsaid⟩
        · have hsmall := length_ping_le payload
          have hdecode := decode_wire roundTrips_pingRequest trivial hsmall env.target
          have hframe : FramedAs env.zlib s.codec.compressionThreshold
              (Clientbound.pongResponse { payload }).bytes (Clientbound.pongResponse { payload }).bytes := by
            rw [hplain]
            exact framedAs_none hsmall
          obtain ⟨s', hhandle, -, hsent⟩ := handle_ping henv
            ⟨Packet.id PingRequest, PlainPacket.body ({ payload } : PingRequest)⟩ { payload }
            (by rw [hstate]) rfl hdecode hframe
          refine ⟨_, false, s', hrun.close hhandle, ?_⟩
          rw [show s'.sent.map (·.packet) = s'.said from rfl, said_append hsent, hsaid]
          rfl
    | @login answers last hanswers hlast =>
        obtain ⟨names, hnames, rfl⟩ := hanswers
        obtain ⟨history, s, hrun, hstate, hsaid⟩ := says_answers henv config hnames
        rcases hlast with rfl | ⟨packet, ⟨reason, hreason, rfl⟩, rfl⟩
        · rw [List.append_nil]
          exact ⟨history, true, s, hrun, hsaid⟩
        · -- the empty name is refused
          have hcapped : Capped Protocol.maxUsernameChars (⟨"", 0⟩ : LoginStart).name := Nat.zero_le _
          have hsmall : (wire (⟨"", 0⟩ : LoginStart)).length ≤ maxPacketSize :=
            le_trans (length_loginStart_le hcapped) (by decide)
          have hcarries : Carries env ⟨Packet.id LoginStart, PlainPacket.body (⟨"", 0⟩ : LoginStart)⟩ ⟨"", 0⟩ :=
            ⟨rfl, decode_wire roundTrips_loginStart hcapped hsmall env.target⟩
          obtain ⟨p, hframe⟩ := framedAs_short henv hshort
            (length_loginDisconnect_le (hshort.reason reason hreason)) s.codec.compressionThreshold
          obtain ⟨s', hhandle, -, -, hsent⟩ := handle_loginRefused henv hstate hcarries not_nameValid_empty
            hreason hframe
          refine ⟨_, false, s', hrun.fail hhandle, ?_⟩
          rw [show s'.sent.map (·.packet) = s'.said from rfl, said_append hsent, hsaid]
          rfl

/-- Two logins on one connection. -/
theorem output_language_twice :
    ∃ history live s, Run storedEnv .default history live s ∧ s.sent.map (·.packet)
      = ["Steve", "Alex"].flatMap (loginAnswer storedEnv .default) := by
  have hnames : ∀ name ∈ ["Steve", "Alex"], NameValid name := by
    intro name hmem
    rcases List.mem_cons.mp hmem with rfl | hmem
    · exact validateUsername_iff.mp (by decide +kernel)
    · rw [List.mem_singleton.mp hmem]
      exact validateUsername_iff.mp (by decide +kernel)
  refine (output_language storedEnv_reliable storedEnv_shortLogins .default _).mpr ?_
  rw [← List.append_nil (["Steve", "Alex"].flatMap (loginAnswer storedEnv .default))]
  exact .login ⟨_, hnames, rfl⟩ .none

end Pyrite.Net
