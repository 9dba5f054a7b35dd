import Pyrite.Net.Bodies
import Pyrite.Net.Client
import Pyrite.Wire.Interrupt

set_option autoImplicit false

/-! # Whole conversations

A client and the server, each reading what the other has written in pieces of any size and at any time. While the
server waits for a frame its wait may also end: the read timeout elapses, the stream ends, or reading fails.

Each conversation is followed once, in the simplest order and without such an end: the server reads the greeting,
the client reads the answer and replies, the server reads the reply. That every other order comes to the same
end is `Wire.inevitable`, and that it does so unless the server's wait has ended is
`Wire.Inevitable.intended`. That the transport takes every write is assumed throughout (`Reliable`). -/

namespace Pyrite.Net

open Wire Protocol Relation

variable {env : Env} {config : ServerConfig} {s : Connection}

/-! ## The server's side -/

/-- A handshake moves the connection on and does nothing else. -/
theorem handle_handshake {frame : RawPacket} {handshake : Handshake} (hstate : s.state.current = .handshaking)
    (hid : frame.id = Packet.id Handshake) (hdecode : Packet.decode env.target frame.body = .ok handshake []) :
    Connection.handle env frame s
      = .ok .proceed { s with state := { s.state with current := askedState handshake.nextState } } := by
  rw [handle_of_selected (selected_iff.mpr ⟨hstate, hid⟩ : _ = some .handshake)]
  simp only [Serverbound.handler, Connection.handleHandshake, Exec.bind_apply, decodeAs_of_decode hdecode,
    Outcome.bind_ok]
  cases handshake.nextState <;>
    simp [Connection.transition, ConnectionState.transition, ConnectionState.permitted, hstate, askedState]

/-- A packet that can be framed is sent. -/
theorem send_delivers (henv : Reliable env) {packet : Clientbound} {p : Bytes}
    (h : FramedAs env.zlib s.codec.compressionThreshold packet.bytes p) :
    ∃ codec, codec.compressionThreshold = s.codec.compressionThreshold ∧
      Connection.send env packet s = .ok () (s.wrote codec packet p) := by
  have hframe : packet.frame env.zlib s.codec.compressionThreshold = .ok p := by
    rw [Clientbound.frame, if_neg (Nat.not_lt.mpr h.small), h.payload]
  obtain ⟨codec, hsame, hcases⟩ := send_cases env packet s
  rcases hcases with ⟨p', hframe', -, hsend⟩ | ⟨p', reason, -, hflush, -⟩ | ⟨e, herror, -⟩
  · rw [hframe] at hframe'
    obtain rfl := Except.ok.inj hframe'
    exact ⟨codec, hsame, hsend⟩
  · rw [henv.flush] at hflush
    cases hflush
  · rw [hframe] at herror
    cases herror

/-- What handling a first status request is. -/
theorem handle_statusRequest_eq {frame : RawPacket} (hstate : s.state.current = .status)
    (hid : frame.id = Packet.id StatusRequest) (hseen : s.state.statusRequestSeen = false) :
    Connection.handle env frame s
      = (Exec.mapError (fun reason => .protocol (.json reason)) (Exec.ofExcept (env.statusToJson
          (StatusResponseJson.new s.config.motd s.config.maxPlayers 0))) >>= fun json =>
        Connection.send env (.statusResponse { json }) >>= fun _ => pure .proceed)
        { s with state := ⟨.status, true⟩ } := by
  rw [handle_of_selected (selected_iff.mpr ⟨hstate, hid⟩ : _ = some .statusRequest)]
  simp only [Serverbound.handler, Connection.handleStatusRequest, Exec.bind_apply, Exec.state_apply,
    Outcome.bind_ok, ConnectionState.markStatusRequestSeen, hseen, Bool.false_eq_true, if_false,
    Exec.ofExcept_ok, Exec.pure_apply, Exec.setState_apply, hstate]

/-- What handling a ping is. -/
theorem handle_ping_eq {frame : RawPacket} {ping : PingRequest} (hstate : s.state.current = .status)
    (hid : frame.id = Packet.id PingRequest) (hdecode : Packet.decode env.target frame.body = .ok ping []) :
    Connection.handle env frame s
      = (Connection.send env (.pongResponse { payload := ping.payload }) >>= fun _ => pure .close) s := by
  rw [handle_of_selected (selected_iff.mpr ⟨hstate, hid⟩ : _ = some .pingRequest)]
  simp only [Serverbound.handler, Connection.handlePing, Exec.bind_apply, decodeAs_of_decode hdecode,
    Outcome.bind_ok]

/-- What handling a login is, under a name that is not acceptable. -/
theorem handle_loginRefused_eq {frame : RawPacket} {start : LoginStart} (hstate : s.state.current = .login)
    (hcarries : Carries env frame start) (hname : ¬ NameValid start.name) :
    Connection.handle env frame s
      = (Exec.mapError .protocol (Exec.ofExcept (LoginDisconnect.fromComponent env.textToJson refusal)) >>=
        fun packet => Connection.send env (.loginDisconnect packet) >>= fun _ =>
          Exec.throw (.invalidUsername start.name)) s := by
  have hinvalid : validateUsername start.name = .error (.invalidUsername start.name) := by
    have hnot := mt validateUsername_iff.mp hname
    simp only [validateUsername] at hnot ⊢
    rw [if_neg fun hvalid => hnot (if_pos hvalid)]
  rw [handle_eq_handleLoginStart hstate hcarries.1]
  simp only [Connection.handleLoginStart, Exec.bind_apply, decodeAs_of_decode hcarries.2, Outcome.bind_ok,
    hinvalid]
  rfl

/-- A first status request is answered with the status document. -/
theorem handle_statusRequest (henv : Reliable env) (s : Connection) (frame : RawPacket) (json : String) {p : Bytes}
    (hstate : s.state.current = .status) (hid : frame.id = Packet.id StatusRequest)
    (hseen : s.state.statusRequestSeen = false)
    (hjson : env.statusToJson (StatusResponseJson.new s.config.motd s.config.maxPlayers 0) = .ok json)
    (hframe : FramedAs env.zlib s.codec.compressionThreshold (Clientbound.statusResponse { json }).bytes p) :
    ∃ s', Connection.handle env frame s = .ok .proceed s' ∧ s'.state = ⟨.status, true⟩ ∧
      s'.codec.compressionThreshold = s.codec.compressionThreshold ∧ s'.written = s.written ++ frameBytes p ∧
      s'.sent = s.sent ++ [⟨.statusResponse { json }, s.codec.compressionThreshold⟩] := by
  obtain ⟨codec, hsame, hsend⟩ := send_delivers (s := { s with state := ⟨.status, true⟩ }) henv hframe
  refine ⟨{ s with state := ⟨.status, true⟩ }.wrote codec (.statusResponse { json }) p, ?_, rfl, hsame, rfl, rfl⟩
  rw [handle_statusRequest_eq hstate hid hseen, hjson]
  simp only [Exec.ofExcept_ok, Exec.mapError, Exec.pure_apply, Exec.bind_apply, Outcome.bind_ok, hsend]

/-- A status document that is too large for a frame ends the connection, and nothing is sent. -/
theorem handle_statusRequest_tooLarge (env : Env) (s : Connection) (frame : RawPacket) (json : String)
    (hstate : s.state.current = .status) (hid : frame.id = Packet.id StatusRequest)
    (hseen : s.state.statusRequestSeen = false)
    (hjson : env.statusToJson (StatusResponseJson.new s.config.motd s.config.maxPlayers 0) = .ok json)
    (hlarge : maxPacketSize < (Clientbound.statusResponse { json }).bytes.length) :
    ∃ e s', Connection.handle env frame s = .error e s' ∧ s'.written = s.written := by
  have hframe : ∀ p, (Clientbound.statusResponse { json }).frame env.zlib s.codec.compressionThreshold ≠ .ok p := by
    intro p hok
    rw [Clientbound.frame, if_pos hlarge] at hok
    cases hok
  obtain ⟨codec, -, hcases⟩ := send_cases env (.statusResponse { json }) { s with state := ⟨.status, true⟩ }
  rcases hcases with ⟨p, hok, -⟩ | ⟨p, reason, hok, -⟩ | ⟨e, -, hsend⟩
  · exact absurd hok (hframe p)
  · exact absurd hok (hframe p)
  · refine ⟨.protocol e, { s with state := ⟨.status, true⟩, codec }, ?_, rfl⟩
    rw [handle_statusRequest_eq hstate hid hseen, hjson]
    simp only [Exec.ofExcept_ok, Exec.mapError, Exec.pure_apply, Exec.bind_apply, Outcome.bind_ok, hsend]
    rfl

/-- A ping is echoed, and the connection closed. -/
theorem handle_ping (henv : Reliable env) (frame : RawPacket) (ping : PingRequest) {p : Bytes}
    (hstate : s.state.current = .status) (hid : frame.id = Packet.id PingRequest)
    (hdecode : Packet.decode env.target frame.body = .ok ping [])
    (hframe : FramedAs env.zlib s.codec.compressionThreshold
      (Clientbound.pongResponse { payload := ping.payload }).bytes p) :
    ∃ s', Connection.handle env frame s = .ok .close s' ∧ s'.written = s.written ++ frameBytes p ∧
      s'.sent = s.sent ++ [⟨.pongResponse { payload := ping.payload }, s.codec.compressionThreshold⟩] := by
  obtain ⟨codec, -, hsend⟩ := send_delivers henv hframe
  refine ⟨s.wrote codec (.pongResponse { payload := ping.payload }) p, ?_, rfl, rfl⟩
  rw [handle_ping_eq hstate hid hdecode]
  simp only [Exec.bind_apply, Outcome.bind_ok, hsend, Exec.pure_apply]

/-- A name that is not acceptable is refused with a text, and ends the connection. -/
theorem handle_loginRefused (henv : Reliable env) {frame : RawPacket} {start : LoginStart} {reason : String}
    {p : Bytes} (hstate : s.state.current = .login) (hcarries : Carries env frame start)
    (hname : ¬ NameValid start.name) (hreason : env.textToJson refusal = .ok reason)
    (hframe : FramedAs env.zlib s.codec.compressionThreshold (Clientbound.loginDisconnect { reason }).bytes p) :
    ∃ s', Connection.handle env frame s = .error (.invalidUsername start.name) s' ∧
      s'.state.current = .login ∧ s'.written = s.written ++ frameBytes p ∧
      s'.sent = s.sent ++ [⟨.loginDisconnect { reason }, s.codec.compressionThreshold⟩] := by
  obtain ⟨codec, -, hsend⟩ := send_delivers henv hframe
  refine ⟨s.wrote codec (.loginDisconnect { reason }) p, ?_, hstate, rfl, rfl⟩
  rw [handle_loginRefused_eq hstate hcarries hname]
  simp only [LoginDisconnect.fromComponent, hreason, Exec.ofExcept_ok, Exec.mapError, Exec.pure_apply,
    Exec.bind_apply, Outcome.bind_ok, hsend]
  rfl

/-! ## Greetings -/

/-- The ID and the body of a packet, as they are framed. -/
def wire {P : Type} [Packet P] [PlainPacket P] (packet : P) : Bytes :=
  varintBytes (Packet.id P) ++ PlainPacket.body packet

/-- A packet that is within its caps is read back by the other end. -/
theorem decode_wire {P : Type} [Packet P] [PlainPacket P] {fits : P → Prop} (h : RoundTrips P fits) {packet : P}
    (hfits : fits packet) (hsmall : (wire packet).length ≤ maxPacketSize) (t : Target) :
    Packet.decode t (PlainPacket.body packet) = .ok packet [] := by
  have hlength : (PlainPacket.body packet).length < 2147483648 := by
    rw [wire, List.length_append] at hsmall
    exact lt_of_le_of_lt (le_trans (Nat.le_add_left _ _) hsmall) (by decide)
  have hround := (h t packet [] (by rw [PlainPacket.encode_eq]; exact hlength)).2.1.mpr hfits
  rwa [List.append_nil, PlainPacket.encode_eq] at hround

/-- A client opens the conversation with a handshake and a request. -/
def Client.greets {P : Type} [Packet P] (z : Zlib) (t : Target) (handshake : Handshake) (request : P) :
    Option Client := do
  let client ← Client.new.send z t handshake
  client.send z t request

theorem greets_eq {P : Type} [Packet P] [PlainPacket P] (z : Zlib) (t : Target) (handshake : Handshake)
    (request : P) (hhandshake : (wire handshake).length ≤ maxPacketSize)
    (hrequest : (wire request).length ≤ maxPacketSize) :
    ∃ codec, codec.compressionThreshold = none ∧ Client.greets z t handshake request
      = some ⟨codec, frameBytes (wire handshake) ++ frameBytes (wire request), []⟩ := by
  obtain ⟨codec, hsame, hsend⟩ := Client.send_plain (z := z) t .new handshake (framedAs_none hhandshake)
  obtain ⟨codec', hsame', hsend'⟩ := Client.send_plain (z := z) (p := wire request) t
    ⟨codec, frameBytes (wire handshake), []⟩ request
    (by rw [hsame]; exact framedAs_none hrequest)
  refine ⟨codec', hsame'.trans hsame, ?_⟩
  rw [Client.greets, hsend]
  exact hsend'

theorem length_handshake_le {handshake : Handshake}
    (h : Capped maxServerAddressChars handshake.serverAddress) : (wire handshake).length ≤ 800 := by
  have hid := length_varintBytes_le (Packet.id Handshake)
  have hversion := length_varintBytes_le handshake.protocolVersion
  have hnext := length_varintBytes_le handshake.nextState.toInt32
  have haddress := length_stringBytes_le handshake.serverAddress
  simp only [Capped, maxServerAddressChars] at h
  simp only [maxVarintLen] at hid hversion hnext
  simp only [wire, PlainPacket.body, List.length_append, length_wordBytes, Word.size]
  omega

/-- A packet without a body. -/
theorem length_empty_le {P : Type} [Packet P] [PlainPacket P] (packet : P) (h : PlainPacket.body packet = []) :
    (wire packet).length ≤ 600 := by
  have hid := length_varintBytes_le (Packet.id P)
  simp only [maxVarintLen] at hid
  rw [wire, h, List.append_nil]
  omega

/-- A fresh connection after a handshake. -/
def Connection.asked (config : ServerConfig) (handshake : Handshake) : Connection :=
  { Connection.new config with state := ⟨askedState handshake.nextState, false⟩ }

theorem askedState_of_ne {next : NextState} (h : next ≠ .status) : askedState next = .login := by
  cases next with
  | status => exact absurd rfl h
  | login => rfl
  | transfer => rfl

/-- The server reads a frame. -/
theorem settle_handled (hz : env.zlib.Inverts) {id : Int32} {body p : Bytes}
    {outcome : Outcome NetError Connection Flow}
    (h : FramedAs env.zlib s.codec.compressionThreshold (varintBytes id ++ body) p)
    (hhandle : Connection.handle env ⟨id, body⟩ s = outcome) (rest : Bytes) :
    (serverReactor env).settle (.waiting s) (frameBytes p ++ rest)
      = (serverReactor env).settle (Service.handled outcome) rest := by
  rw [← hhandle]
  exact settle_frame (e := serverEnd env) hz h rest

theorem settle_lastHandled (hz : env.zlib.Inverts) {id : Int32} {body p : Bytes}
    {outcome : Outcome NetError Connection Flow}
    (h : FramedAs env.zlib s.codec.compressionThreshold (varintBytes id ++ body) p)
    (hhandle : Connection.handle env ⟨id, body⟩ s = outcome) :
    (serverReactor env).settle (.waiting s) (frameBytes p) = (Service.handled outcome, []) := by
  rw [← hhandle]
  exact settle_last (e := serverEnd env) hz h

/-- The server reads a handshake. -/
theorem settle_handshake (hz : env.zlib.Inverts) {handshake : Handshake}
    (h : Capped maxServerAddressChars handshake.serverAddress) (rest : Bytes) :
    (serverReactor env).settle (.waiting (.new config)) (frameBytes (wire handshake) ++ rest)
      = (serverReactor env).settle (.waiting (.asked config handshake)) rest := by
  have hsmall : (wire handshake).length ≤ maxPacketSize := le_trans (length_handshake_le h) (by decide)
  have hdecode := decode_wire roundTrips_handshake h hsmall env.target
  have hhandle : Connection.handle env ⟨Packet.id Handshake, PlainPacket.body handshake⟩ (.new config)
      = .ok .proceed (.asked config handshake) := handle_handshake rfl rfl hdecode
  exact settle_handled hz (framedAs_none hsmall) hhandle rest

/-- The server reads a handshake and what the client has sent with it. -/
theorem settle_greeting {P : Type} [Packet P] [PlainPacket P] (hz : env.zlib.Inverts) {handshake : Handshake}
    (haddress : Capped maxServerAddressChars handshake.serverAddress) {request : P}
    (hsmall : (wire request).length ≤ maxPacketSize) {outcome : Outcome NetError Connection Flow}
    (hhandle : Connection.handle env ⟨Packet.id P, PlainPacket.body request⟩ (.asked config handshake) = outcome) :
    (serverReactor env).settle (.waiting (.new config)) (frameBytes (wire handshake) ++ frameBytes (wire request))
      = (Service.handled outcome, []) := by
  rw [settle_handshake hz haddress]
  exact settle_lastHandled hz (framedAs_none hsmall) hhandle

/-! ## Every order of events -/

/-- While `run` waits for a frame, its wait may end in any way. -/
def Connection.Stops (p : Service × Bytes) (f : Service) : Prop :=
  ∃ s ending, p.1 = .waiting s ∧ f = .ended (Connection.finish ending p)

theorem server_halts (env : Env) : Halts (serverReactor env) Service.output Connection.Stops where
  output := by
    rintro ⟨f, buffer⟩ _ ⟨s, ending, hwaiting, rfl⟩
    obtain rfl : f = .waiting s := hwaiting
    cases ending with
    | eof => cases buffer <;> rfl
    | failed reason => rfl
    | elapsed => rfl
  deaf := by
    rintro p _ ⟨s, ending, -, rfl⟩ input
    rfl
  once := by
    rintro p _ ⟨s, ending, -, rfl⟩ buffer t' ⟨s', ending', hwaiting, -⟩
    cases hwaiting

section Ends

variable (env : Env) (t : Target) (onPacket : Client → RawPacket → Framed Client Farewell)
  (config : ServerConfig) (client : Client)

/-- Every run of a client against a fresh connection, whatever the order and the size of the reads, ends at
    `q`. -/
def EndsAt (q : Duplex (Framed Client Farewell) Service UInt8) : Prop :=
  Inevitable ((Client.clientEnd onPacket).reactor env.zlib t) (serverReactor env) Client.output Service.output
    (.waiting client) (.waiting (.new config)) q

/-- A point of such a run. -/
def Occurs (d : Duplex (Framed Client Farewell) Service UInt8) : Prop :=
  Reached ((Client.clientEnd onPacket).reactor env.zlib t) (serverReactor env) Client.output Service.output
    (.waiting client) (.waiting (.new config)) d

/-- Every run in which the server's wait may end at any moment can be continued to `q`, unless it has ended; and
    none goes on for ever. -/
def ComesTo (q : Duplex (Framed Client Farewell) Service UInt8) : Prop :=
  Intended ((Client.clientEnd onPacket).reactor env.zlib t) (serverReactor env) Client.output Service.output
    Connection.Stops (.waiting client) (.waiting (.new config)) q

/-- A point of such a run. -/
def Talks (d : Duplex (Framed Client Farewell) Service UInt8) : Prop :=
  Talked ((Client.clientEnd onPacket).reactor env.zlib t) (serverReactor env) Client.output Service.output
    Connection.Stops (.waiting client) (.waiting (.new config)) d

/-- The server's wait has ended, and the client has read what it can have read by then. -/
def BrokenOff (d : Duplex (Framed Client Farewell) Service UInt8) : Prop :=
  ∃ p, Occurs env t onPacket config client p ∧ BrokenAt Client.output Connection.Stops p d

end Ends

section Ends

variable {t : Target} {onPacket : Client → RawPacket → Framed Client Farewell} {client : Client}

/-- A conversation in which each side reads twice. It is enough to follow it in this order. -/
theorem endsAt_of_reads (config : ServerConfig) (client : Client) (reply last : Bytes)
    (hwrites : ∀ client frame, client.written <+: Client.output (onPacket client frame))
    {f₁ f₂ : Service} {g₁ g₂ : Framed Client Farewell}
    (hgreeting : (serverReactor env).settle (.waiting (.new config)) client.written = (f₁, []))
    (hanswer : ((Client.clientEnd onPacket).reactor env.zlib t).settle (.waiting client) (Service.output f₁)
      = (g₁, []))
    (hreply : Client.output g₁ = client.written ++ reply)
    (hserver : (serverReactor env).settle f₁ reply = (f₂, []))
    (hlast : Service.output f₂ = Service.output f₁ ++ last)
    (hclient : ((Client.clientEnd onPacket).reactor env.zlib t).settle g₁ last = (g₂, []))
    (hquiet : Client.output g₂ = Client.output g₁) :
    EndsAt env t onPacket config client
      ⟨(g₂, []), (f₂, []), (Service.output f₂).length, (Client.output g₂).length⟩ := by
  have ha := client_writes (z := env.zlib) (t := t) hwrites
  have hb := server_writes env
  have hstart : Occurs env t onPacket config client
      ⟨(.waiting client, []), (.waiting (.new config), []), 0, 0⟩ := by
    have hrefl : Occurs env t onPacket config client (Duplex.start _ _ _ _) := ReflTransGen.refl
    rwa [Duplex.start, Endpoint.settle_nil, Endpoint.settle_nil] at hrefl
  have h₁ := Reached.right_reads ha hb hstart
  rw [show Client.output (Framed.waiting client) = client.written from rfl, List.drop_zero, Reactor.feed,
    List.nil_append, hgreeting] at h₁
  have h₂ := Reached.left_reads ha hb h₁
  rw [List.drop_zero, Reactor.feed, List.nil_append, hanswer] at h₂
  have h₃ := Reached.right_reads ha hb h₂
  simp only [hreply, List.drop_left, Reactor.feed, List.nil_append, hserver] at h₃
  have h₄ := Reached.left_reads ha hb h₃
  simp only [hlast, List.drop_left, Reactor.feed, List.nil_append, hclient] at h₄
  rw [← hreply, ← hquiet, ← hlast] at h₄
  exact inevitable ha hb h₄ ⟨rfl, rfl⟩

/-- A conversation in which the server answers the greeting and nothing more is written. -/
theorem endsAt_of_answer (config : ServerConfig) (client : Client)
    (hwrites : ∀ client frame, client.written <+: Client.output (onPacket client frame))
    {f : Service} {g : Framed Client Farewell}
    (hgreeting : (serverReactor env).settle (.waiting (.new config)) client.written = (f, []))
    (hanswer : ((Client.clientEnd onPacket).reactor env.zlib t).settle (.waiting client) (Service.output f) = (g, []))
    (hreply : Client.output g = client.written) :
    EndsAt env t onPacket config client ⟨(g, []), (f, []), (Service.output f).length, (Client.output g).length⟩ :=
  endsAt_of_reads config client [] [] hwrites hgreeting hanswer (hreply.trans (List.append_nil _).symm)
    (Endpoint.settle_nil _) (List.append_nil _).symm (Endpoint.settle_nil _) rfl

theorem EndsAt.comesTo {q : Duplex (Framed Client Farewell) Service UInt8}
    (hwrites : ∀ client frame, client.written <+: Client.output (onPacket client frame))
    (h : EndsAt env t onPacket config client q) : ComesTo env t onPacket config client q :=
  Inevitable.intended (client_writes hwrites) (server_writes env) (server_halts env) h

/-- Who is still waiting at the end has been waiting throughout. -/
theorem EndsAt.waiting {q d : Duplex (Framed Client Farewell) Service UInt8}
    (h : EndsAt env t onPacket config client q) {client' : Client} {s' : Connection}
    (hclient : q.left.1 = .waiting client') (hserver : q.right.1 = .waiting s')
    (hd : Occurs env t onPacket config client d) :
    (∃ client'', d.left.1 = .waiting client'') ∧ ∃ s'', d.right.1 = .waiting s'' := by
  have hlater := h.converges d hd
  constructor
  · cases hleft : d.left.1 with
    | waiting client'' => exact ⟨client'', rfl⟩
    | ended farewell =>
        have hended := Delivery.keeps_left (P := fun f => f = .ended farewell)
          (fun f buffer f' rest hf hnext => by subst hf; cases hnext) hlater hleft
        rw [hclient] at hended
        cases hended
  · cases hright : d.right.1 with
    | waiting s'' => exact ⟨s'', rfl⟩
    | ended outcome =>
        have hended := Delivery.keeps_right (P := fun f => f = .ended outcome)
          (fun f buffer f' rest hf hnext => by subst hf; cases hnext) hlater hright
        rw [hserver] at hended
        cases hended

/-- Where both are still waiting at the end: at every point the client has been waiting, and has heard an initial
    part of what it has heard in the end; and the server has been waiting too, unless its wait has ended. -/
theorem EndsAt.seen {q d : Duplex (Framed Client Farewell) Service UInt8}
    (hwrites : ∀ client frame, client.written <+: Client.output (onPacket client frame))
    (hhears : ∀ client frame, client.received <+: Client.heard (onPacket client frame))
    (h : EndsAt env t onPacket config client q) {client' : Client} {s' : Connection}
    (hclient : q.left.1 = .waiting client') (hserver : q.right.1 = .waiting s')
    (hd : Talks env t onPacket config client d) :
    (∃ now, d.left.1 = .waiting now ∧ now.received <+: client'.received) ∧
      ((∃ s'', d.right.1 = .waiting s'') ∨ BrokenOff env t onPacket config client d) := by
  have hheard : ∀ p, Occurs env t onPacket config client p →
      ∃ now, p.left.1 = .waiting now ∧ now.received <+: client'.received := by
    intro p hp
    obtain ⟨⟨now, hnow⟩, -⟩ := h.waiting hclient hserver hp
    have hprefix := Delivery.keeps_left (P := fun f => now.received <+: Client.heard f)
      (fun f buffer f' rest hP hnext => hP.trans (client_hears hhears hnext)) (h.converges p hp)
      (by rw [hnow]; exact List.prefix_rfl)
    rw [hclient] at hprefix
    exact ⟨now, hnow, hprefix⟩
  rcases (h.comesTo hwrites).cases d hd with ⟨hreached, -⟩ | ⟨p, hp, hbroken⟩
  · exact ⟨hheard d hreached, Or.inl (h.waiting hclient hserver hreached).2⟩
  · refine ⟨?_, Or.inr ⟨p, hp, hbroken⟩⟩
    rw [hbroken.left]
    exact hheard p hp

end Ends

end Pyrite.Net
