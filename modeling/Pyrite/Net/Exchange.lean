import Pyrite.Net.Conversation

set_option autoImplicit false

/-! # Logins and server list pings

The conversations of the end-to-end tests, in every order of events: a login, a login that is refused, and a server
list ping. Each comes to one end (`login_completes`, `login_refused`, `status_completes`), unless the server's
wait ends before. -/

namespace Pyrite.Net

open Wire Protocol Relation

variable {env : Env} {config : ServerConfig} {s : Connection}

/-! ## Login -/

theorem roundTrips_setCompression : RoundTrips SetCompression fun _ => True :=
  roundTrips_of_readsBack fun t p rest _ =>
    ReadsBack.after_ok (readVarint_append t p.threshold rest) (readsBack_of_eq rfl)

/-- The client reads that compression is announced, and switches. -/
theorem settle_setCompression {z : Zlib} (hz : z.Inverts) {t : Target} {client : Client} {set : SetCompression}
    {p : Bytes} (h : FramedAs z client.codec.compressionThreshold (wire set) p) (rest : Bytes) :
    ((Client.clientEnd (Client.onLoginPacket z t)).reactor z t).settle (.waiting client) (frameBytes p ++ rest)
      = ((Client.clientEnd (Client.onLoginPacket z t)).reactor z t).settle (.waiting { client with
          codec := client.codec.setCompression set.threshold
          received := client.received ++ [.setCompression set] }) rest := by
  have hdecode : Client.decodeAs SetCompression t ⟨Packet.id SetCompression, PlainPacket.body set⟩ = some set :=
    Client.decodeAs_of_decode (decode_wire roundTrips_setCompression trivial h.small t)
  rw [settle_frame (e := Client.clientEnd (Client.onLoginPacket z t)) hz h]
  simp only [Client.clientEnd, Client.onLoginPacket, if_true, hdecode]
  rfl

/-- The client reads that it is logged in, and acknowledges. -/
theorem settle_loginSuccess {z : Zlib} (hz : z.Inverts) (t : Target) (client : Client) {success : LoginSuccess}
    {p p' : Bytes} (h : FramedAs z client.codec.compressionThreshold (wire success) p)
    (hfits : success.profile.Fits)
    (h' : FramedAs z client.codec.compressionThreshold (wire ({} : LoginAcknowledged)) p') :
    ∃ codec, codec.compressionThreshold = client.codec.compressionThreshold ∧
      ((Client.clientEnd (Client.onLoginPacket z t)).reactor z t).settle (.waiting client) (frameBytes p)
        = (.waiting ⟨codec, client.written ++ frameBytes p', client.received ++ [.loginSuccess success]⟩, []) := by
  have hdecode : Client.decodeAs LoginSuccess t ⟨Packet.id LoginSuccess, PlainPacket.body success⟩ = some success :=
    Client.decodeAs_of_decode (decode_wire roundTrips_loginSuccess hfits h.small t)
  obtain ⟨codec, hsame, hsend⟩ := Client.send_plain t (client.hears (.loginSuccess success))
    ({} : LoginAcknowledged) h'
  refine ⟨codec, hsame, ?_⟩
  have hother : Packet.id LoginSuccess ≠ Packet.id SetCompression := by decide
  rw [settle_last (e := Client.clientEnd (Client.onLoginPacket z t)) hz h]
  simp only [Client.clientEnd, Client.onLoginPacket, if_neg hother, if_true, hdecode]
  show (client.orFail ((client.hears (.loginSuccess success)).send z t ({} : LoginAcknowledged)), []) = _
  rw [hsend]
  rfl

/-- The server answers a login with the frames of the answer, and waits in the setting that it announced. -/
theorem login_answered (henv : Reliable env) {frame : RawPacket} {start : LoginStart}
    (hstate : s.state.current = .login) (hcarries : Carries env frame start) (hname : NameValid start.name) :
    ∃ s' more, Connection.handle env frame s = .ok .proceed s' ∧
      s'.state.current = .login ∧ s'.codec.compressionThreshold = negotiated s ∧
      s'.written = s.written ++ more ∧ s'.sent = s.sent ++ loginEntries env s start ∧
      FramesOf env.zlib (loginEntries env s start) more := by
  obtain ⟨s', hhandle, hsent⟩ := handle_loginStart henv hstate hcarries hname
  have happended := (append_discipline env).handle frame s
  rw [hhandle] at happended
  obtain ⟨entries, more, hentries, hwritten, hframes⟩ := happended
  obtain rfl : loginEntries env s start = entries := List.append_cancel_left (hsent.symm.trans hentries)
  have hafter : s'.state.current = .login ∧ s'.codec.compressionThreshold = negotiated s := by
    have hstep := (handle_step env _ s).of_ok hhandle
    cases hstep with
    | handshake _ hhandshaking =>
        rw [hstate] at hhandshaking
        cases hhandshaking
    | statusRequest _ hstatus =>
        rw [hstate] at hstatus
        cases hstatus
    | loginStart _ _ _ _ _ hlive heffect =>
        obtain ⟨-, hthreshold⟩ := hlive rfl
        rw [heffect.state, heffect.threshold]
        exact ⟨hstate, hthreshold⟩
    | loginAcknowledged _ hid =>
        rw [hcarries.1] at hid
        exact absurd hid (by decide : Packet.id LoginStart ≠ Packet.id LoginAcknowledged)
  exact ⟨s', more, hhandle, hafter.1, hafter.2, hwritten, hsent, hframes⟩

/-- What a client sends to log in. -/
theorem carries_wire (env : Env) {start : LoginStart} (hname : NameValid start.name) :
    Carries env ⟨Packet.id LoginStart, PlainPacket.body start⟩ start := by
  have hencode := carries_encode env hname start.uuid
  rwa [PlainPacket.encode_eq] at hencode

theorem loginSuccessFor_fits (env : Env) {name : String} (hname : NameValid name) :
    (loginSuccessFor env name).profile.Fits := by
  refine ⟨?_, Nat.zero_le _, by simp [loginSuccessFor]⟩
  exact hname.capped

/-- The client reads the answer to its login: it ends in the setting that the server has switched to, and has
    sent its acknowledgement in that setting. -/
theorem settle_loginEntries (henv : Reliable env) (hshort : ShortLogins env) (t : Target) (client : Client)
    {start : LoginStart} {more : Bytes} (hname : NameValid start.name)
    (hcodec : client.codec.compressionThreshold = s.codec.compressionThreshold)
    (hframes : FramesOf env.zlib (loginEntries env s start) more) :
    ∃ client' p, ((Client.clientEnd (Client.onLoginPacket env.zlib t)).reactor env.zlib t).settle
        (.waiting client) more = (.waiting client', []) ∧
      client'.codec.compressionThreshold = negotiated s ∧
      FramedAs env.zlib (negotiated s) (wire ({} : LoginAcknowledged)) p ∧
      client'.written = client.written ++ frameBytes p ∧
      client'.received = client.received ++ (loginEntries env s start).map (·.packet) := by
  obtain ⟨p, hack⟩ := framedAs_short henv hshort (length_empty_le ({} : LoginAcknowledged) rfl) (negotiated s)
  have hsuccess : (wire (loginSuccessFor env start.name)).length ≤ 600 :=
    le_trans (length_loginSuccess_le env hname) (by decide)
  have hset : ∀ set : SetCompression, (wire set).length ≤ 600 :=
    fun set => le_trans (length_setCompression_le set) (by decide)
  have hfits := loginSuccessFor_fits env hname
  unfold loginEntries compressionEntries at hframes ⊢
  cases hthreshold : s.config.compressionThreshold with
  | none =>
      have hnegotiated : negotiated s = client.codec.compressionThreshold := by
        rw [negotiated, hthreshold, hcodec]
      rw [hthreshold] at hframes
      obtain ⟨p₁, rest, hframe, rfl, rfl⟩ := hframes
      have hframed := FramedAs.of_frame hframe (fitsFrame_of_short hshort hsuccess _)
      rw [hnegotiated] at hframed hack
      obtain ⟨codec, hsame, hsettle⟩ := settle_loginSuccess hshort.inverts t _ hframed hfits hack
      rw [List.append_nil, hnegotiated]
      exact ⟨_, p, hsettle, hsame, hack, rfl, rfl⟩
  | some threshold =>
      -- the announcement is framed in the old setting, and everything after it in the new one
      have hnegotiated : negotiated s = (client.codec.setCompression threshold).compressionThreshold := by
        rw [negotiated, hthreshold]
        rfl
      rw [hthreshold] at hframes
      obtain ⟨p₁, rest, hframe₁, rfl, p₂, rest₂, hframe₂, rfl, rfl⟩ := hframes
      have hframed₁ := FramedAs.of_frame hframe₁ (fitsFrame_of_short hshort (hset _) _)
      have hframed₂ := FramedAs.of_frame hframe₂ (fitsFrame_of_short hshort hsuccess _)
      simp only at hframed₁ hframed₂
      rw [← hcodec] at hframed₁
      rw [hnegotiated] at hframed₂ hack
      obtain ⟨codec, hsame, hsettle⟩ := settle_loginSuccess hshort.inverts t { client with
        codec := client.codec.setCompression threshold
        received := client.received ++ [.setCompression { threshold }] } hframed₂ hfits hack
      rw [settle_setCompression hshort.inverts hframed₁, List.append_nil, hnegotiated]
      refine ⟨_, p, hsettle, hsame, hack, rfl, ?_⟩
      simp [loginSuccessFor]

/-- What a server announces before it lets a client in. -/
def announcement (config : ServerConfig) : List Clientbound :=
  config.compressionThreshold.toList.map fun threshold => .setCompression { threshold }

theorem loginEntries_packets (env : Env) (s : Connection) (start : LoginStart) :
    (loginEntries env s start).map (·.packet)
      = announcement s.config ++ [.loginSuccess (loginSuccessFor env start.name)] := by
  unfold loginEntries compressionEntries announcement
  cases s.config.compressionThreshold <;> rfl

theorem length_loginStart_le {start : LoginStart} (h : Capped Protocol.maxUsernameChars start.name) :
    (wire start).length ≤ 600 := by
  have hid := length_varintBytes_le (Packet.id LoginStart)
  have hname := length_stringBytes_le start.name
  simp only [Capped, Protocol.maxUsernameChars] at h
  simp only [maxVarintLen] at hid
  simp only [wire, PlainPacket.body, List.length_append, length_wordBytes, Word.size]
  omega

/-- The end that every login comes to. -/
theorem login_ends (henv : Reliable env) (hshort : ShortLogins env) (t : Target) (config : ServerConfig)
    (handshake : Handshake) (hnext : handshake.nextState ≠ .status)
    (haddress : Capped maxServerAddressChars handshake.serverAddress) (start : LoginStart)
    (hname : NameValid start.name) :
    ∃ client client' s', Client.greets env.zlib t handshake start = some client ∧
      EndsAt env t (Client.onLoginPacket env.zlib t) config client
        ⟨(.waiting client', []), (.waiting s', []), s'.written.length, client'.written.length⟩ ∧
      s'.state.current = .configuration ∧
      client'.received = announcement config ++ [.loginSuccess (loginSuccessFor env start.name)] ∧
      client'.codec.compressionThreshold = s'.codec.compressionThreshold := by
  have hstart : (wire start).length ≤ maxPacketSize := le_trans (length_loginStart_le hname.capped) (by decide)
  have hlogin : (Connection.asked config handshake).state.current = .login := askedState_of_ne hnext
  obtain ⟨codec, hcodec, hgreets⟩ := greets_eq env.zlib t handshake start
    (le_trans (length_handshake_le haddress) (by decide)) hstart
  -- the server reads the greeting and answers
  obtain ⟨s₁, more, hhandle, hstate₁, hthreshold₁, hwritten₁, -, hframes⟩ := login_answered henv hlogin
    (carries_wire env hname) hname
  have hgreeting := settle_greeting hshort.inverts haddress hstart hhandle
  -- the client reads the answer and acknowledges
  obtain ⟨client', p, hanswer, hthreshold', hack, hwritten', hreceived'⟩ := settle_loginEntries henv hshort t
    ⟨codec, frameBytes (wire handshake) ++ frameBytes (wire start), []⟩ hname hcodec hframes
  -- the server reads the acknowledgement
  have hacknowledged := settle_lastHandled hshort.inverts (s := s₁) (hthreshold₁ ▸ hack)
    (handle_acknowledged hstate₁ rfl)
  have hmore : s₁.written = more := hwritten₁
  rw [← hmore] at hanswer
  have hends := endsAt_of_reads config
    ⟨codec, frameBytes (wire handshake) ++ frameBytes (wire start), []⟩ (frameBytes p) []
    (Client.onLoginPacket_written env.zlib t) hgreeting hanswer hwritten'
    hacknowledged (List.append_nil _).symm (Endpoint.settle_nil _) rfl
  refine ⟨_, client', { s₁ with state := { s₁.state with current := .configuration } }, hgreets, hends, rfl, ?_,
    hthreshold'.trans hthreshold₁.symm⟩
  rw [hreceived', loginEntries_packets]
  rfl

/-- **A login completes, in every order of events.** Take a transport that takes every write, a zlib that inverts what
    it deflates, a server address within its cap, and an acceptable name. Whatever the two ends read when, and
    in pieces of whatever size: the client never fails, and has at every point received an initial part of what
    it receives in all; no run goes on for ever; and unless the server's wait is ended by a timeout, by a failure
    or by the end of the stream, the server does not fail either, and every run comes to the same end. There the
    server is in the configuration state, the client has been told of the compression that is configured and
    that it is logged in, under the identity that belongs to its name, and the two codecs are in the same
    setting. -/
theorem login_completes (henv : Reliable env) (hshort : ShortLogins env) (t : Target) (config : ServerConfig)
    (handshake : Handshake) (hnext : handshake.nextState ≠ .status)
    (haddress : Capped maxServerAddressChars handshake.serverAddress) (start : LoginStart)
    (hname : NameValid start.name) :
    ∃ client client' s', Client.greets env.zlib t handshake start = some client ∧
      ComesTo env t (Client.onLoginPacket env.zlib t) config client
        ⟨(.waiting client', []), (.waiting s', []), s'.written.length, client'.written.length⟩ ∧
      s'.state.current = .configuration ∧
      client'.received = announcement config ++ [.loginSuccess (loginSuccessFor env start.name)] ∧
      client'.codec.compressionThreshold = s'.codec.compressionThreshold ∧
      ∀ d, Talks env t (Client.onLoginPacket env.zlib t) config client d →
        (∃ now, d.left.1 = .waiting now ∧ now.received <+: client'.received) ∧
        ((∃ s'', d.right.1 = .waiting s'') ∨ BrokenOff env t (Client.onLoginPacket env.zlib t) config client d) := by
  obtain ⟨client, client', s', hgreets, hends, hstate, hreceived, hthreshold⟩ := login_ends henv hshort t config
    handshake hnext haddress start hname
  have hwrites := Client.onLoginPacket_written env.zlib t
  exact ⟨client, client', s', hgreets, hends.comesTo hwrites, hstate, hreceived, hthreshold,
    fun d hd => hends.seen hwrites (Client.onLoginPacket_heard env.zlib t) rfl rfl hd⟩

theorem storedEnv_reliable : Reliable storedEnv := ⟨fun _ => rfl, fun _ => ⟨_, rfl⟩⟩

theorem login_completes_steve :
    ∃ client client' s',
      Client.greets storedEnv.zlib .bits64 ⟨776, "a", 25565, .login⟩ (⟨"Steve", 0⟩ : LoginStart) = some client ∧
      ComesTo storedEnv .bits64 (Client.onLoginPacket storedEnv.zlib .bits64) .default client
        ⟨(.waiting client', []), (.waiting s', []), s'.written.length, client'.written.length⟩ ∧
      client'.received = [.setCompression ⟨256⟩, .loginSuccess (loginSuccessFor storedEnv "Steve")] := by
  have hname : NameValid "Steve" := validateUsername_iff.mp (by decide +kernel)
  have haddress : Capped maxServerAddressChars "a" := by
    show (utf8 "a").length ≤ 765
    decide +kernel
  obtain ⟨client, client', s', hgreets, hcomes, -, hreceived, -⟩ := login_completes storedEnv_reliable
    storedEnv_shortLogins .bits64 .default ⟨776, "a", 25565, .login⟩ (by decide) haddress ⟨"Steve", 0⟩ hname
  exact ⟨client, client', s', hgreets, hcomes, hreceived⟩

theorem roundTrips_loginDisconnect :
    RoundTrips LoginDisconnect fun p => Capped maxDisconnectReasonChars p.reason :=
  roundTrips_string LoginDisconnect.reason LoginDisconnect.mk (fun _ => rfl) (fun _ => rfl) fun _ => rfl

/-- The client reads why it is refused, and is done. -/
theorem settle_loginDisconnect {z : Zlib} (hz : z.Inverts) (t : Target) (client : Client)
    (disconnect : LoginDisconnect) {p : Bytes}
    (h : FramedAs z client.codec.compressionThreshold (wire disconnect) p)
    (hcapped : Capped maxDisconnectReasonChars disconnect.reason) :
    ((Client.clientEnd (Client.onLoginPacket z t)).reactor z t).settle (.waiting client) (frameBytes p)
      = (.ended ⟨client.hears (.loginDisconnect disconnect), true⟩, []) := by
  have hdecode : Client.decodeAs LoginDisconnect t
      ⟨Packet.id LoginDisconnect, PlainPacket.body disconnect⟩ = some disconnect :=
    Client.decodeAs_of_decode (decode_wire roundTrips_loginDisconnect hcapped h.small t)
  have hset : Packet.id LoginDisconnect ≠ Packet.id SetCompression := by decide
  have hsuccess : Packet.id LoginDisconnect ≠ Packet.id LoginSuccess := by decide
  rw [settle_last (e := Client.clientEnd (Client.onLoginPacket z t)) hz h]
  simp only [Client.clientEnd, Client.onLoginPacket, if_neg hset, if_neg hsuccess, if_true, hdecode]

/-- A name over the cap of the codec is refused by the decoder. -/
theorem decode_loginStart_tooLong (t : Target) {start : LoginStart} (hsmall : (wire start).length ≤ maxPacketSize)
    (hlong : ¬ Capped Protocol.maxUsernameChars start.name) :
    (Packet.decode t (PlainPacket.body start) : Outcome ProtocolError Bytes LoginStart)
      = .error (.stringTooLong (utf8 start.name).length (3 * Protocol.maxUsernameChars))
          (utf8 start.name ++ wordBytes start.uuid) := by
  have hlength : (stringBytes start.name).length < 2147483648 := by
    simp only [wire, PlainPacket.body, List.length_append] at hsmall
    have hmax : maxPacketSize < 2147483648 := by decide
    omega
  have hmax : t.saturatingMul Protocol.maxUsernameChars maxBytesPerChar = 3 * Protocol.maxUsernameChars := by
    cases t <;> rfl
  have hover : (utf8 start.name).length > t.saturatingMul Protocol.maxUsernameChars maxBytesPerChar := by
    rw [hmax]
    exact Nat.not_le.mp hlong
  show (readString t Protocol.maxUsernameChars >>= fun name => readUuid >>= fun uuid =>
    (pure { name, uuid } : Exec ProtocolError Bytes LoginStart)) (stringBytes start.name ++ wordBytes start.uuid) = _
  rw [Exec.bind_apply, readString_append t Protocol.maxUsernameChars hlength, if_pos hover, hmax]
  rfl

/-- So the connection ends without an answer. -/
theorem handle_loginStart_tooLong {start : LoginStart} (hstate : s.state.current = .login)
    (hsmall : (wire start).length ≤ maxPacketSize) (hlong : ¬ Capped Protocol.maxUsernameChars start.name) :
    Connection.handle env ⟨Packet.id LoginStart, PlainPacket.body start⟩ s
      = .error (.protocol (.stringTooLong (utf8 start.name).length (3 * Protocol.maxUsernameChars))) s := by
  have hdecode : Connection.decodeAs LoginStart env ⟨Packet.id LoginStart, PlainPacket.body start⟩ s
      = .error (.protocol (.stringTooLong (utf8 start.name).length (3 * Protocol.maxUsernameChars))) s :=
    decodeAs_of_error (decode_loginStart_tooLong env.target hsmall hlong) s
  rw [handle_eq_handleLoginStart hstate rfl]
  simp only [Connection.handleLoginStart, Exec.bind_apply, hdecode]
  rfl

/-- The end that a login comes to under a name that the codec passes on and the server does not accept. -/
theorem refused_ends (henv : Reliable env) (hshort : ShortLogins env) (t : Target) (config : ServerConfig)
    {handshake : Handshake} (hnext : handshake.nextState ≠ .status)
    (haddress : Capped maxServerAddressChars handshake.serverAddress) {start : LoginStart}
    (hcapped : Capped Protocol.maxUsernameChars start.name) (hname : ¬ NameValid start.name) {reason : String}
    (hreason : env.textToJson refusal = .ok reason) {codec : PacketCodec} (hcodec : codec.compressionThreshold = none) :
    ∃ client' s', EndsAt env t (Client.onLoginPacket env.zlib t) config
        ⟨codec, frameBytes (wire handshake) ++ frameBytes (wire start), []⟩
        ⟨(.ended ⟨client', true⟩, []), (.ended (.error (.invalidUsername start.name) s'), []), s'.written.length,
          client'.written.length⟩ ∧
      client'.received = [.loginDisconnect { reason }] ∧ s'.state.current = .login := by
  have hstart : (wire start).length ≤ maxPacketSize := le_trans (length_loginStart_le hcapped) (by decide)
  have hlogin : (Connection.asked config handshake).state.current = .login := askedState_of_ne hnext
  have hshortReason := hshort.reason reason hreason
  have hdisconnect : (Clientbound.loginDisconnect { reason }).bytes.length ≤ maxPacketSize :=
    le_trans (length_loginDisconnect_le hshortReason) (by decide)
  have hcarries : Carries env ⟨Packet.id LoginStart, PlainPacket.body start⟩ start :=
    ⟨rfl, decode_wire roundTrips_loginStart hcapped hstart env.target⟩
  obtain ⟨s', hhandle, hstate', hwritten', -⟩ := handle_loginRefused henv hlogin hcarries hname hreason
    (framedAs_none (z := env.zlib) hdisconnect)
  have hgreeting := settle_greeting hshort.inverts haddress hstart hhandle
  have hread := settle_loginDisconnect (p := wire ({ reason } : LoginDisconnect)) hshort.inverts t
    ⟨codec, frameBytes (wire handshake) ++ frameBytes (wire start), []⟩ { reason }
    (by rw [hcodec]; exact framedAs_none hdisconnect) (by
      simp only [Capped, maxDisconnectReasonChars]
      omega)
  have hanswer : s'.written = frameBytes (wire ({ reason } : LoginDisconnect)) := hwritten'
  rw [← hanswer] at hread
  have hends := endsAt_of_answer config ⟨codec, frameBytes (wire handshake) ++ frameBytes (wire start), []⟩
    (Client.onLoginPacket_written env.zlib t) hgreeting hread rfl
  exact ⟨_, s', hends, rfl, hstate'⟩

/-- The end that a login comes to under a name that the codec does not pass on. -/
theorem tooLong_ends (hz : env.zlib.Inverts) (t : Target) (config : ServerConfig) {handshake : Handshake}
    (hnext : handshake.nextState ≠ .status) (haddress : Capped maxServerAddressChars handshake.serverAddress)
    {start : LoginStart} (hsmall : (wire start).length ≤ maxPacketSize)
    (hlong : ¬ Capped Protocol.maxUsernameChars start.name) (codec : PacketCodec) :
    EndsAt env t (Client.onLoginPacket env.zlib t) config
      ⟨codec, frameBytes (wire handshake) ++ frameBytes (wire start), []⟩
      ⟨(.waiting ⟨codec, frameBytes (wire handshake) ++ frameBytes (wire start), []⟩, []),
        (.ended (.error (.protocol (.stringTooLong (utf8 start.name).length (3 * Protocol.maxUsernameChars)))
          (.asked config handshake)), []), 0, (frameBytes (wire handshake) ++ frameBytes (wire start)).length⟩ := by
  have hlogin : (Connection.asked config handshake).state.current = .login := askedState_of_ne hnext
  have hhandle : Connection.handle env ⟨Packet.id LoginStart, PlainPacket.body start⟩ (.asked config handshake)
      = .error (.protocol (.stringTooLong (utf8 start.name).length (3 * Protocol.maxUsernameChars)))
        (.asked config handshake) := handle_loginStart_tooLong hlogin hsmall hlong
  exact endsAt_of_answer config ⟨codec, frameBytes (wire handshake) ++ frameBytes (wire start), []⟩
    (Client.onLoginPacket_written env.zlib t) (settle_greeting hz haddress hsmall hhandle) (Endpoint.settle_nil _) rfl

/-- **A refused login is refused in every order of events.** Take a name that is not acceptable, in a packet that can
    be sent, and a transport, a zlib and a server address as for a login. Unless the server's wait is ended
    before, every run comes to the same end. If the name is within the cap of the codec, which is 48 bytes, the
    client is told why and nothing else, and the server ends with that error. If it is longer, the decoder
    refuses it: the server ends with a violation of the protocol, and nothing is sent. -/
theorem login_refused (henv : Reliable env) (hshort : ShortLogins env) (t : Target) (config : ServerConfig)
    (handshake : Handshake) (hnext : handshake.nextState ≠ .status)
    (haddress : Capped maxServerAddressChars handshake.serverAddress) (start : LoginStart)
    (hsmall : (wire start).length ≤ maxPacketSize) (hname : ¬ NameValid start.name) {reason : String}
    (hreason : env.textToJson refusal = .ok reason) :
    ∃ client, Client.greets env.zlib t handshake start = some client ∧
      ((utf8 start.name).length ≤ 48 → ∃ client' s',
        ComesTo env t (Client.onLoginPacket env.zlib t) config client
          ⟨(.ended ⟨client', true⟩, []), (.ended (.error (.invalidUsername start.name) s'), []), s'.written.length,
            client'.written.length⟩ ∧
        client'.received = [.loginDisconnect { reason }] ∧ s'.state.current = .login) ∧
      (48 < (utf8 start.name).length → ∃ client' s',
        ComesTo env t (Client.onLoginPacket env.zlib t) config client
          ⟨(.waiting client', []),
            (.ended (.error (.protocol (.stringTooLong (utf8 start.name).length 48)) s'), []), 0,
            client'.written.length⟩ ∧
        client'.received = [] ∧ s'.state.current = .login ∧ s'.sent = []) := by
  obtain ⟨codec, hcodec, hgreets⟩ := greets_eq env.zlib t handshake start
    (le_trans (length_handshake_le haddress) (by decide)) hsmall
  have hwrites := Client.onLoginPacket_written env.zlib t
  refine ⟨_, hgreets, fun hcapped => ?_, fun hlong => ?_⟩
  · obtain ⟨client', s', hends, hreceived, hstate⟩ := refused_ends henv hshort t config hnext haddress hcapped hname
      hreason hcodec
    exact ⟨client', s', hends.comesTo hwrites, hreceived, hstate⟩
  · have hends := tooLong_ends hshort.inverts t config hnext haddress hsmall (Nat.not_le.mpr hlong) codec
    exact ⟨_, _, hends.comesTo hwrites, rfl, askedState_of_ne hnext, rfl⟩

/-- A name with a space in it. -/
theorem login_refused_space :
    ∃ client client' s',
      Client.greets storedEnv.zlib .bits64 ⟨776, "a", 25565, .login⟩ (⟨"has space", 0⟩ : LoginStart) = some client ∧
      ComesTo storedEnv .bits64 (Client.onLoginPacket storedEnv.zlib .bits64) .default client
        ⟨(.ended ⟨client', true⟩, []), (.ended (.error (.invalidUsername "has space") s'), []), s'.written.length,
          client'.written.length⟩ := by
  have hname : ¬ NameValid "has space" := mt validateUsername_iff.mpr (by decide +kernel)
  have haddress : Capped maxServerAddressChars "a" := by
    show (utf8 "a").length ≤ 765
    decide +kernel
  obtain ⟨client, hgreets, hcapped, -⟩ := login_refused storedEnv_reliable storedEnv_shortLogins .bits64 .default
    ⟨776, "a", 25565, .login⟩ (by decide) haddress ⟨"has space", 0⟩ (by decide +kernel) hname rfl
  obtain ⟨client', s', hcomes, -⟩ := hcapped (by decide +kernel)
  exact ⟨client, client', s', hgreets, hcomes⟩

/-! ## Status -/

theorem roundTrips_statusResponse : RoundTrips StatusResponse fun p => Capped maxStatusJsonChars p.json :=
  roundTrips_string StatusResponse.json StatusResponse.mk (fun _ => rfl) (fun _ => rfl) fun _ => rfl

theorem roundTrips_pingRequest : RoundTrips PingRequest fun _ => True :=
  roundTrips_of_readsBack fun _ p rest _ =>
    ReadsBack.after_ok (readI64_append p.payload rest) (readsBack_of_eq rfl)

theorem roundTrips_pongResponse : RoundTrips PongResponse fun _ => True :=
  roundTrips_of_readsBack fun _ p rest _ =>
    ReadsBack.after_ok (readI64_append p.payload rest) (readsBack_of_eq rfl)

theorem length_ping_le (payload : Int64) : (wire ({ payload } : PingRequest)).length ≤ maxPacketSize := by
  have hid := length_varintBytes_le (Packet.id PingRequest)
  have hmax : 5 + 8 ≤ maxPacketSize := by decide
  simp only [maxVarintLen] at hid
  simp only [wire, PlainPacket.body, List.length_append, length_wordBytes, Word.size]
  omega

/-- The client reads the status, and pings. -/
theorem settle_statusResponse {z : Zlib} (hz : z.Inverts) (t : Target) (payload : Int64) (client : Client)
    (response : StatusResponse) (p p' : Bytes)
    (h : FramedAs z client.codec.compressionThreshold (wire response) p)
    (hcapped : Capped maxStatusJsonChars response.json)
    (h' : FramedAs z client.codec.compressionThreshold (wire ({ payload } : PingRequest)) p') :
    ∃ codec, codec.compressionThreshold = client.codec.compressionThreshold ∧
      ((Client.clientEnd (Client.onStatusPacket z t payload)).reactor z t).settle (.waiting client) (frameBytes p)
        = (.waiting ⟨codec, client.written ++ frameBytes p', client.received ++ [.statusResponse response]⟩, []) := by
  have hdecode : Client.decodeAs StatusResponse t ⟨Packet.id StatusResponse, PlainPacket.body response⟩
      = some response :=
    Client.decodeAs_of_decode (decode_wire roundTrips_statusResponse hcapped h.small t)
  obtain ⟨codec, hsame, hsend⟩ := Client.send_plain t (client.hears (.statusResponse response))
    ({ payload } : PingRequest) h'
  refine ⟨codec, hsame, ?_⟩
  rw [settle_last (e := Client.clientEnd (Client.onStatusPacket z t payload)) hz h]
  simp only [Client.clientEnd, Client.onStatusPacket, if_true, hdecode]
  show (client.orFail ((client.hears (.statusResponse response)).send z t ({ payload } : PingRequest)), []) = _
  rw [hsend]
  rfl

/-- The client reads the echo of its ping, and is done. -/
theorem settle_pong {z : Zlib} (hz : z.Inverts) (t : Target) (payload : Int64) (client : Client)
    (pong : PongResponse) {p : Bytes} (h : FramedAs z client.codec.compressionThreshold (wire pong) p) :
    ((Client.clientEnd (Client.onStatusPacket z t payload)).reactor z t).settle (.waiting client) (frameBytes p)
      = (.ended ⟨client.hears (.pongResponse pong), true⟩, []) := by
  have hdecode : Client.decodeAs PongResponse t ⟨Packet.id PongResponse, PlainPacket.body pong⟩ = some pong :=
    Client.decodeAs_of_decode (decode_wire roundTrips_pongResponse trivial h.small t)
  have hother : Packet.id PongResponse ≠ Packet.id StatusResponse := by decide
  rw [settle_last (e := Client.clientEnd (Client.onStatusPacket z t payload)) hz h]
  simp only [Client.clientEnd, Client.onStatusPacket, if_neg hother, if_true, hdecode]

/-- A packet that is over its cap cannot be decoded. -/
theorem Client.decodeAs_of_not_fits {P : Type} [Packet P] [PlainPacket P] {fits : P → Prop} (h : RoundTrips P fits)
    {packet : P} (hfits : ¬ fits packet) (hsmall : (wire packet).length ≤ maxPacketSize) (t : Target) :
    Client.decodeAs P t ⟨Packet.id P, PlainPacket.body packet⟩ = none := by
  have hlength : (PlainPacket.body packet).length < 2147483648 := by
    rw [wire, List.length_append] at hsmall
    exact lt_of_le_of_lt (le_trans (Nat.le_add_left _ _) hsmall) (by decide)
  obtain ⟨e, rest, herror, -⟩ := (h t packet [] (by rw [PlainPacket.encode_eq]; exact hlength)).2.2 hfits
  rw [List.append_nil, PlainPacket.encode_eq] at herror
  have herror : (Packet.decode t (PlainPacket.body packet) : Outcome ProtocolError Bytes P) = .error e rest := herror
  simp [Client.decodeAs, RawPacket.decodeAs, Exec.locally, herror]

/-- The client cannot read the status, and gives up. -/
theorem settle_statusTooLong {z : Zlib} (hz : z.Inverts) (t : Target) (payload : Int64) (client : Client)
    {response : StatusResponse} {p : Bytes} (h : FramedAs z client.codec.compressionThreshold (wire response) p)
    (hlong : ¬ Capped maxStatusJsonChars response.json) :
    ((Client.clientEnd (Client.onStatusPacket z t payload)).reactor z t).settle (.waiting client) (frameBytes p)
      = (.ended ⟨client, false⟩, []) := by
  have hdecode := Client.decodeAs_of_not_fits roundTrips_statusResponse hlong h.small t
  rw [settle_last (e := Client.clientEnd (Client.onStatusPacket z t payload)) hz h]
  simp only [Client.clientEnd, Client.onStatusPacket, if_true, hdecode]
  rfl

section Status

variable {handshake : Handshake} {json : String} {payload : Int64} {codec : PacketCodec}

theorem length_statusRequest_le : (wire ({} : StatusRequest)).length ≤ maxPacketSize :=
  le_trans (length_empty_le ({} : StatusRequest) rfl) (by decide)

theorem asked_status (config : ServerConfig) (hnext : handshake.nextState = .status) :
    (Connection.asked config handshake).state = ⟨.status, false⟩ := by
  simp [Connection.asked, hnext, askedState]

/-- The server reads the greeting of a status client and answers it. -/
theorem status_answered (henv : Reliable env) (hz : env.zlib.Inverts) (config : ServerConfig)
    (hnext : handshake.nextState = .status) (haddress : Capped maxServerAddressChars handshake.serverAddress)
    (hjson : env.statusToJson (StatusResponseJson.new config.motd config.maxPlayers 0) = .ok json)
    (hresponse : (wire ({ json } : StatusResponse)).length ≤ maxPacketSize) :
    ∃ s₁, (serverReactor env).settle (.waiting (.new config))
        (frameBytes (wire handshake) ++ frameBytes (wire ({} : StatusRequest))) = (.waiting s₁, []) ∧
      s₁.state.current = .status ∧ s₁.codec.compressionThreshold = none ∧
      s₁.written = frameBytes (wire ({ json } : StatusResponse)) := by
  have hstatus := asked_status config hnext
  obtain ⟨s₁, hhandle₁, hstate₁, hcodec₁, hwritten₁, -⟩ := handle_statusRequest henv (.asked config handshake)
    ⟨Packet.id StatusRequest, PlainPacket.body ({} : StatusRequest)⟩ json (by rw [hstatus]) rfl
    (by rw [hstatus]) hjson (framedAs_none (z := env.zlib) hresponse)
  exact ⟨s₁, settle_greeting hz haddress length_statusRequest_le hhandle₁, by rw [hstate₁], hcodec₁, hwritten₁⟩

/-- The end that a server list ping comes to. -/
theorem ping_ends (henv : Reliable env) (hz : env.zlib.Inverts) (t : Target) (config : ServerConfig)
    (hnext : handshake.nextState = .status) (haddress : Capped maxServerAddressChars handshake.serverAddress)
    (hjson : env.statusToJson (StatusResponseJson.new config.motd config.maxPlayers 0) = .ok json)
    (hresponse : (wire ({ json } : StatusResponse)).length ≤ maxPacketSize)
    (hcapped : Capped maxStatusJsonChars json) (payload : Int64) (hcodec : codec.compressionThreshold = none) :
    ∃ client' s', EndsAt env t (Client.onStatusPacket env.zlib t payload) config
        ⟨codec, frameBytes (wire handshake) ++ frameBytes (wire ({} : StatusRequest)), []⟩
        ⟨(.ended ⟨client', true⟩, []), (.ended (.ok () s'), []), s'.written.length, client'.written.length⟩ ∧
      client'.received = [.statusResponse { json }, .pongResponse { payload }] := by
  have hping : (wire ({ payload } : PingRequest)).length ≤ maxPacketSize := length_ping_le payload
  have hpong : (wire ({ payload } : PongResponse)).length ≤ maxPacketSize := hping
  obtain ⟨s₁, hgreeting, hstatus₁, hplain₁, hwritten₁⟩ := status_answered henv hz config hnext haddress hjson hresponse
  -- the client reads the status and pings
  obtain ⟨codec', hcodec', hanswer⟩ := settle_statusResponse hz t payload
    ⟨codec, frameBytes (wire handshake) ++ frameBytes (wire ({} : StatusRequest)), []⟩
    { json } (wire ({ json } : StatusResponse)) (wire ({ payload } : PingRequest))
    (by rw [hcodec]; exact framedAs_none hresponse) hcapped (by rw [hcodec]; exact framedAs_none hping)
  -- the server reads the ping, echoes it and closes
  have hdecode := decode_wire roundTrips_pingRequest trivial hping env.target
  obtain ⟨s₂, hhandle₂, hwritten₂, -⟩ := handle_ping (s := s₁) (p := wire ({ payload } : PongResponse)) henv
    ⟨Packet.id PingRequest, PlainPacket.body ({ payload } : PingRequest)⟩ { payload } hstatus₁ rfl hdecode
    (by rw [hplain₁]; exact framedAs_none hpong)
  have hserver := settle_lastHandled hz (s := s₁) (p := wire ({ payload } : PingRequest))
    (by rw [hplain₁]; exact framedAs_none hping) hhandle₂
  -- the client reads the echo
  have hlast := settle_pong (p := wire ({ payload } : PongResponse)) hz t payload
    ⟨codec', (frameBytes (wire handshake) ++ frameBytes (wire ({} : StatusRequest)))
      ++ frameBytes (wire ({ payload } : PingRequest)), [.statusResponse { json }]⟩
    { payload } (by rw [hcodec', hcodec]; exact framedAs_none hpong)
  rw [← hwritten₁] at hanswer
  have hends := endsAt_of_reads config
    ⟨codec, frameBytes (wire handshake) ++ frameBytes (wire ({} : StatusRequest)), []⟩
    (frameBytes (wire ({ payload } : PingRequest))) (frameBytes (wire ({ payload } : PongResponse)))
    (Client.onStatusPacket_written env.zlib t payload) hgreeting hanswer rfl hserver hwritten₂ hlast rfl
  exact ⟨_, s₂, hends, rfl⟩

/-- The end that it comes to when the client cannot read the status. -/
theorem statusTooLong_ends (henv : Reliable env) (hz : env.zlib.Inverts) (t : Target) (config : ServerConfig)
    (hnext : handshake.nextState = .status) (haddress : Capped maxServerAddressChars handshake.serverAddress)
    (hjson : env.statusToJson (StatusResponseJson.new config.motd config.maxPlayers 0) = .ok json)
    (hresponse : (wire ({ json } : StatusResponse)).length ≤ maxPacketSize)
    (hlong : ¬ Capped maxStatusJsonChars json) (payload : Int64) (hcodec : codec.compressionThreshold = none) :
    ∃ q, EndsAt env t (Client.onStatusPacket env.zlib t payload) config
        ⟨codec, frameBytes (wire handshake) ++ frameBytes (wire ({} : StatusRequest)), []⟩ q ∧
      Client.heard q.left.1 = [] := by
  obtain ⟨s₁, hgreeting, -, -, hwritten₁⟩ := status_answered henv hz config hnext haddress hjson hresponse
  have hanswer := settle_statusTooLong (p := wire ({ json } : StatusResponse)) hz t payload
    ⟨codec, frameBytes (wire handshake) ++ frameBytes (wire ({} : StatusRequest)), []⟩
    (by rw [hcodec]; exact framedAs_none hresponse) hlong
  rw [← hwritten₁] at hanswer
  have hends := endsAt_of_answer config
    ⟨codec, frameBytes (wire handshake) ++ frameBytes (wire ({} : StatusRequest)), []⟩
    (Client.onStatusPacket_written env.zlib t payload) hgreeting hanswer rfl
  exact ⟨_, hends, rfl⟩

/-- The end that it comes to when the status is too large for a frame. -/
theorem statusTooLarge_ends (hz : env.zlib.Inverts) (t : Target) (config : ServerConfig)
    (hnext : handshake.nextState = .status) (haddress : Capped maxServerAddressChars handshake.serverAddress)
    (hjson : env.statusToJson (StatusResponseJson.new config.motd config.maxPlayers 0) = .ok json)
    (hlarge : maxPacketSize < (wire ({ json } : StatusResponse)).length) (payload : Int64) (codec : PacketCodec) :
    ∃ q, EndsAt env t (Client.onStatusPacket env.zlib t payload) config
        ⟨codec, frameBytes (wire handshake) ++ frameBytes (wire ({} : StatusRequest)), []⟩ q ∧
      Client.heard q.left.1 = [] := by
  have hstatus := asked_status config hnext
  obtain ⟨e, s', hhandle, hwritten⟩ := handle_statusRequest_tooLarge env (.asked config handshake)
    ⟨Packet.id StatusRequest, PlainPacket.body ({} : StatusRequest)⟩ json (by rw [hstatus]) rfl
    (by rw [hstatus]) hjson hlarge
  have hgreeting := settle_greeting hz haddress length_statusRequest_le hhandle
  -- the client waits for an answer
  have hanswer : ((Client.clientEnd (Client.onStatusPacket env.zlib t payload)).reactor env.zlib t).settle
      (.waiting ⟨codec, frameBytes (wire handshake) ++ frameBytes (wire ({} : StatusRequest)), []⟩)
      (Service.output (Service.handled (.error e s')))
      = (.waiting ⟨codec, frameBytes (wire handshake) ++ frameBytes (wire ({} : StatusRequest)), []⟩, []) := by
    rw [show Service.output (Service.handled (.error e s')) = [] from hwritten]
    exact Endpoint.settle_nil _
  have hends := endsAt_of_answer config
    ⟨codec, frameBytes (wire handshake) ++ frameBytes (wire ({} : StatusRequest)), []⟩
    (Client.onStatusPacket_written env.zlib t payload) hgreeting hanswer rfl
  exact ⟨_, hends, rfl⟩

end Status

/-- **A server list ping completes, in every order of events**, if its client can read the status document, for which
    there is a cap of 98301 bytes. Take a transport that takes every write, a zlib that inverts what it deflates,
    and a server address within its cap. Whatever the two ends read when, and in pieces of whatever size: no run
    goes on for ever, and unless the server's wait is ended before, every run comes to the same end. With a
    document within the cap of its own the client has then received it and the payload of its own ping, in this
    order and nothing else, and the server has closed the connection without an error. With a longer one it has
    received nothing: nothing keeps an operator from a message of the day that no client can read. -/
theorem status_completes (henv : Reliable env) (hz : env.zlib.Inverts) (t : Target) (config : ServerConfig)
    (handshake : Handshake) (hnext : handshake.nextState = .status)
    (haddress : Capped maxServerAddressChars handshake.serverAddress) {json : String}
    (hjson : env.statusToJson (StatusResponseJson.new config.motd config.maxPlayers 0) = .ok json)
    (payload : Int64) :
    ∃ client, Client.greets env.zlib t handshake ({} : StatusRequest) = some client ∧
      ((utf8 json).length ≤ 98301 → ∃ client' s',
        ComesTo env t (Client.onStatusPacket env.zlib t payload) config client
          ⟨(.ended ⟨client', true⟩, []), (.ended (.ok () s'), []), s'.written.length, client'.written.length⟩ ∧
        client'.received = [.statusResponse { json }, .pongResponse { payload }]) ∧
      (98301 < (utf8 json).length → ∃ q,
        ComesTo env t (Client.onStatusPacket env.zlib t payload) config client q ∧ Client.heard q.left.1 = []) := by
  obtain ⟨codec, hcodec, hgreets⟩ := greets_eq env.zlib t handshake ({} : StatusRequest)
    (le_trans (length_handshake_le haddress) (by decide)) length_statusRequest_le
  have hwrites := Client.onStatusPacket_written env.zlib t payload
  refine ⟨_, hgreets, fun hcapped => ?_, fun hlong => ?_⟩
  · have hresponse : (wire ({ json } : StatusResponse)).length ≤ maxPacketSize := by
      have hid := length_varintBytes_le (Packet.id StatusResponse)
      have hstring := length_stringBytes_le json
      have hmax : 10 + 98301 ≤ maxPacketSize := by decide
      simp only [maxVarintLen] at hid
      simp only [wire, PlainPacket.body, List.length_append]
      omega
    obtain ⟨client', s', hends, hreceived⟩ := ping_ends henv hz t config hnext haddress hjson hresponse hcapped payload
      hcodec
    exact ⟨client', s', hends.comesTo hwrites, hreceived⟩
  · rcases Nat.lt_or_ge maxPacketSize (wire ({ json } : StatusResponse)).length with hlarge | hsmall
    · obtain ⟨q, hends, hheard⟩ := statusTooLarge_ends hz t config hnext haddress hjson hlarge payload codec
      exact ⟨q, hends.comesTo hwrites, hheard⟩
    · obtain ⟨q, hends, hheard⟩ := statusTooLong_ends henv hz t config hnext haddress hjson hsmall
        (Nat.not_le.mpr hlong) payload hcodec
      exact ⟨q, hends.comesTo hwrites, hheard⟩

/-- The status document of the default configuration. -/
def defaultStatus : String :=
    "\x7b\"version\":\x7b\"name\":\"26.2\",\"protocol\":776\x7d," ++
    "\"players\":\x7b\"max\":20,\"online\":0,\"sample\":[]\x7d," ++
    "\"description\":\x7b\"text\":\"A Pyrite Server\"\x7d,\"enforcesSecureChat\":false\x7d"

/-- An environment that serialises it. -/
def statusEnv : Env := { storedEnv with statusToJson := fun _ => .ok defaultStatus }

theorem status_completes_seven :
    ∃ client client' s',
      Client.greets statusEnv.zlib .bits64 ⟨776, "a", 25565, .status⟩ ({} : StatusRequest) = some client ∧
      ComesTo statusEnv .bits64 (Client.onStatusPacket statusEnv.zlib .bits64 7) .default client
        ⟨(.ended ⟨client', true⟩, []), (.ended (.ok () s'), []), s'.written.length, client'.written.length⟩ ∧
      client'.received = [.statusResponse ⟨defaultStatus⟩, .pongResponse ⟨7⟩] := by
  have haddress : Capped maxServerAddressChars "a" := by
    show (utf8 "a").length ≤ 765
    decide +kernel
  have hreliable : Reliable statusEnv := ⟨fun _ => rfl, fun _ => ⟨_, rfl⟩⟩
  obtain ⟨client, hgreets, hcapped, -⟩ := status_completes hreliable Zlib.stored_inverts .bits64 .default
    ⟨776, "a", 25565, .status⟩ rfl haddress rfl 7
  obtain ⟨client', s', hcomes, hreceived⟩ := hcapped (by decide +kernel)
  exact ⟨client, client', s', hgreets, hcomes, hreceived⟩

end Pyrite.Net
