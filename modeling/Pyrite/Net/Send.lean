import Pyrite.Net.Steps
import Pyrite.Protocol.RoundTrip
import Pyrite.Protocol.Violations

set_option autoImplicit false

/-! # What a send puts on the wire

The packets the server sends cannot fail to encode, so a send fails in three ways only: the packet is over
the size limit, the compressor fails, or the transport does. In the first two cases nothing was written;
in the third the frame was (`send_cases`).

A handler is a sequence of sends and of steps that write nothing. So what every send does to the bytes
written, every handler does: `Discipline.handle` is the rule for properties of that kind. -/

namespace Pyrite.Net

open Wire Protocol

/-! ## Frames -/

/-- The packet as a receiver sees it. -/
def Clientbound.raw : Clientbound → RawPacket
  | .statusResponse packet => ⟨Packet.id StatusResponse, PlainPacket.body packet⟩
  | .pongResponse packet => ⟨Packet.id PongResponse, PlainPacket.body packet⟩
  | .loginDisconnect packet => ⟨Packet.id LoginDisconnect, PlainPacket.body packet⟩
  | .setCompression packet => ⟨Packet.id SetCompression, PlainPacket.body packet⟩
  | .loginSuccess packet => ⟨Packet.id LoginSuccess, PlainPacket.body packet⟩

/-- The ID and the body, as they are framed. -/
def Clientbound.bytes (packet : Clientbound) : Bytes := varintBytes packet.raw.id ++ packet.raw.body

/-- The payload of the frame for a packet, or why there is none. -/
def Clientbound.frame (z : Zlib) (threshold : Option Int32) (packet : Clientbound) :
    Except ProtocolError Bytes :=
  if packet.bytes.length > maxPacketSize then .error (.frameTooLarge packet.bytes.length maxPacketSize)
  else match payload z threshold packet.bytes with
    | .ok p => .ok p
    | .error reason => .error (.io reason)

/-- `PacketCodec.encode` for a packet that always encodes. -/
theorem encode_plain {P : Type} [Packet P] [PlainPacket P] (z : Zlib) (t : Target) (codec : PacketCodec)
    (item : P) (dst : Bytes) :
    ∃ codec', codec'.compressionThreshold = codec.compressionThreshold ∧
      codec.encode z t item dst =
        if (varintBytes (Packet.id P) ++ PlainPacket.body item).length > maxPacketSize then
          .error (.frameTooLarge (varintBytes (Packet.id P) ++ PlainPacket.body item).length maxPacketSize)
            (codec', dst)
        else match payload z codec.compressionThreshold (varintBytes (Packet.id P) ++ PlainPacket.body item) with
          | .ok p => .ok () (codec', dst ++ frameBytes p)
          | .error reason => .error (.io reason) (codec', dst) := by
  have hresult : (Packet.encode item).result = .ok () := by rw [PlainPacket.encode_eq]; rfl
  have hbytes : packetBytes item = varintBytes (Packet.id P) ++ PlainPacket.body item := by
    rw [packetBytes, PlainPacket.encode_eq]
    rfl
  rw [← hbytes]
  by_cases hmax : (packetBytes item).length > maxPacketSize
  · refine ⟨{ codec with scratch := packetBytes item }, rfl, ?_⟩
    simp only [PacketCodec.encode, writePacket_eq, hresult, if_pos hmax]
  · obtain ⟨codec', hsame, heq⟩ := encode_eq hresult (Nat.not_lt.mp hmax) z t codec dst
    exact ⟨codec', hsame, heq.trans (if_neg hmax).symm⟩

theorem Clientbound.encode_cases (env : Env) (codec : PacketCodec) (dst : Bytes) (packet : Clientbound) :
    ∃ codec', codec'.compressionThreshold = codec.compressionThreshold ∧
      packet.encode env codec dst = match packet.frame env.zlib codec.compressionThreshold with
        | .ok p => .ok () (codec', dst ++ frameBytes p)
        | .error e => .error e (codec', dst) := by
  have hplain : ∀ {P : Type} [Packet P] [PlainPacket P] (item : P) (packet : Clientbound),
      packet.raw = ⟨Packet.id P, PlainPacket.body item⟩ →
      ∃ codec', codec'.compressionThreshold = codec.compressionThreshold ∧
        codec.encode env.zlib env.target item dst = match packet.frame env.zlib codec.compressionThreshold with
          | .ok p => .ok () (codec', dst ++ frameBytes p)
          | .error e => .error e (codec', dst) := by
    intro P _ _ item packet hraw
    obtain ⟨codec', hsame, heq⟩ := encode_plain env.zlib env.target codec item dst
    have hbytes : packet.bytes = varintBytes (Packet.id P) ++ PlainPacket.body item := by
      rw [Clientbound.bytes, hraw]
    refine ⟨codec', hsame, heq.trans ?_⟩
    rw [Clientbound.frame, hbytes]
    split_ifs with hmax
    · rfl
    · cases payload env.zlib codec.compressionThreshold
        (varintBytes (Packet.id P) ++ PlainPacket.body item) <;> rfl
  cases packet with
  | statusResponse packet => exact hplain packet _ rfl
  | pongResponse packet => exact hplain packet _ rfl
  | loginDisconnect packet => exact hplain packet _ rfl
  | setCompression packet => exact hplain packet _ rfl
  | loginSuccess packet => exact hplain packet _ rfl

/-- A compressor that writes to memory does not fail. -/
def Deflates (z : Zlib) : Prop := ∀ input, ∃ output, z.deflate input = .ok output

theorem payload_ok {z : Zlib} (hz : Deflates z) (threshold : Option Int32) (packet : Bytes) :
    ∃ p, payload z threshold packet = .ok p := by
  unfold payload
  cases threshold with
  | none => exact ⟨_, rfl⟩
  | some threshold =>
      obtain ⟨output, houtput⟩ := hz packet
      dsimp only
      split_ifs
      · exact ⟨_, rfl⟩
      · rw [houtput]
        exact ⟨_, rfl⟩

/-- With such a compressor, only the size of a packet can keep it from being framed. -/
theorem Clientbound.frame_of_deflates {z : Zlib} (hz : Deflates z) (threshold : Option Int32)
    (packet : Clientbound) :
    (∃ p, packet.bytes.length ≤ maxPacketSize ∧ packet.frame z threshold = .ok p) ∨
      (maxPacketSize < packet.bytes.length ∧
        packet.frame z threshold = .error (.frameTooLarge packet.bytes.length maxPacketSize)) := by
  unfold Clientbound.frame
  by_cases hmax : packet.bytes.length > maxPacketSize
  · rw [if_pos hmax]
    exact Or.inr ⟨hmax, rfl⟩
  · obtain ⟨p, hp⟩ := payload_ok hz threshold packet.bytes
    rw [if_neg hmax, hp]
    exact Or.inl ⟨p, Nat.not_lt.mp hmax, rfl⟩

/-! ## Sends -/

/-- The connection after a packet was framed as `p` and written. -/
def Connection.wrote (s : Connection) (codec : PacketCodec) (packet : Clientbound) (p : Bytes) : Connection :=
  { s with
    codec
    written := s.written ++ frameBytes p
    sent := s.sent ++ [⟨packet, s.codec.compressionThreshold⟩] }

/-- The three ways a send ends. -/
theorem send_cases (env : Env) (packet : Clientbound) (s : Connection) :
    ∃ codec, codec.compressionThreshold = s.codec.compressionThreshold ∧
      ((∃ p, packet.frame env.zlib s.codec.compressionThreshold = .ok p ∧
        env.flush (s.written ++ frameBytes p) = .ok () ∧
        Connection.send env packet s = .ok () (s.wrote codec packet p)) ∨
       (∃ p reason, packet.frame env.zlib s.codec.compressionThreshold = .ok p ∧
        env.flush (s.written ++ frameBytes p) = .error reason ∧
        Connection.send env packet s = .error (.protocol (.io reason)) (s.wrote codec packet p)) ∨
       (∃ e, packet.frame env.zlib s.codec.compressionThreshold = .error e ∧
        Connection.send env packet s = .error (.protocol e) { s with codec })) := by
  obtain ⟨codec, hsame, heq⟩ := Clientbound.encode_cases env s.codec s.written packet
  refine ⟨codec, hsame, ?_⟩
  unfold Connection.send
  rw [heq]
  cases hframe : packet.frame env.zlib s.codec.compressionThreshold with
  | error e => exact Or.inr (Or.inr ⟨e, rfl, rfl⟩)
  | ok p =>
      dsimp only
      cases hflush : env.flush (s.written ++ frameBytes p) with
      | ok u => exact Or.inl ⟨p, rfl, hflush, rfl⟩
      | error reason => exact Or.inr (Or.inl ⟨p, reason, rfl, hflush, rfl⟩)

/-! ## Handlers -/

theorem isTransportNoise_protocol (e : ProtocolError) : (NetError.protocol e).isTransportNoise = e.isIo := by
  cases e <;> rfl

/-- What a step from `s` writes is described by `R s` if it goes on and by `E s` if it fails. Steps that
    write nothing, and fail only with violations, are of that kind, and so are the sends. -/
structure Discipline (env : Env) (R : Connection → Connection → Prop)
    (E : Connection → NetError → Connection → Prop) : Prop where
  silent : ∀ {s s'}, s'.written = s.written → s'.sent = s.sent → R s s'
  violation : ∀ {s s' e}, s'.written = s.written → s'.sent = s.sent → e.isTransportNoise = false → E s e s'
  trans : ∀ {s s₁ s₂}, R s s₁ → R s₁ s₂ → R s s₂
  fails : ∀ {s s₁ s₂ e}, R s s₁ → E s₁ e s₂ → E s e s₂
  send : ∀ packet s, (Connection.send env packet s).Respects (fun _ s' => R s s') (fun e s' => E s e s')

namespace Discipline

variable {env : Env} {R : Connection → Connection → Prop} {E : Connection → NetError → Connection → Prop}
  {α β : Type}

/-- The computation keeps to the discipline, from every state. -/
def Keeps (R : Connection → Connection → Prop) (E : Connection → NetError → Connection → Prop)
    (m : Exec NetError Connection α) : Prop :=
  ∀ s, (m s).Respects (fun _ s' => R s s') (fun e s' => E s e s')

theorem bind (h : Discipline env R E) {m : Exec NetError Connection α} {f : α → Exec NetError Connection β}
    (hm : Keeps R E m) (hf : ∀ a, Keeps R E (f a)) : Keeps R E (m >>= f) := by
  intro s
  refine (hm s).bind fun a s₁ hR => ?_
  exact (hf a s₁).mono (fun _ _ hR' => h.trans hR hR') fun _ _ hE => h.fails hR hE

/-- A computation that writes nothing and fails with violations. -/
theorem of_silent (h : Discipline env R E) {m : Exec NetError Connection α}
    (hm : ∀ s, (m s).Respects (fun _ s' => s'.written = s.written ∧ s'.sent = s.sent)
      (fun e s' => (s'.written = s.written ∧ s'.sent = s.sent) ∧ e.isTransportNoise = false)) :
    Keeps R E m := by
  intro s
  refine (hm s).mono ?_ ?_
  · intro a s' hsame
    exact h.silent hsame.1 hsame.2
  · intro e s' hpost
    exact h.violation hpost.1.1 hpost.1.2 hpost.2

theorem pure (h : Discipline env R E) (a : α) : Keeps R E (Pure.pure a) := h.of_silent fun _ => ⟨rfl, rfl⟩

theorem throw (h : Discipline env R E) {e : NetError} (he : e.isTransportNoise = false) :
    Keeps R E (Exec.throw e : Exec NetError Connection α) :=
  h.of_silent fun _ => ⟨⟨rfl, rfl⟩, he⟩

theorem decodeAs (h : Discipline env R E) (P : Type) [Packet P] [TotalPacket P] [ViolatingPacket P]
    (frame : RawPacket) : Keeps R E (Connection.decodeAs P env frame) := by
  refine h.of_silent fun s => ?_
  have hspec := decodeAs_spec P env frame s
  have hraises : Exec.OnlyRaises (fun e => NetError.isTransportNoise e = false)
      (Connection.decodeAs P env frame) :=
    (decodeAs_violates P env.target frame).mapError fun e he => (isTransportNoise_protocol e).trans he
  have hraises := hraises s
  cases heq : Connection.decodeAs P env frame s with
  | ok packet s' =>
      rw [heq] at hspec
      obtain ⟨-, rfl⟩ := hspec
      exact ⟨rfl, rfl⟩
  | error e s' =>
      rw [heq] at hspec hraises
      obtain ⟨rfl, -⟩ := hspec
      exact ⟨⟨rfl, rfl⟩, hraises⟩
  | panic => trivial
  | diverge => trivial

theorem transition (h : Discipline env R E) (target : State) : Keeps R E (Connection.transition target) := by
  refine h.of_silent fun s => ?_
  simp only [Connection.transition, Exec.bind_apply, Exec.state_apply, Outcome.bind_ok,
    ConnectionState.transition]
  split_ifs
  · exact ⟨rfl, rfl⟩
  · exact ⟨⟨rfl, rfl⟩, rfl⟩

theorem handleStatusRequest (h : Discipline env R E) : Keeps R E (Connection.handleStatusRequest env) := by
  intro s
  simp only [Connection.handleStatusRequest, Exec.bind_apply, Exec.state_apply, Outcome.bind_ok,
    ConnectionState.markStatusRequestSeen]
  split_ifs
  · exact h.violation rfl rfl rfl
  -- what follows starts from a state with the same bytes written
  have hrest : Keeps R E (do
      let json ← Exec.mapError (fun reason => .protocol (.json reason))
        (Exec.ofExcept (env.statusToJson (StatusResponseJson.new s.config.motd s.config.maxPlayers 0)))
      Connection.send env (.statusResponse { json })
      Pure.pure Flow.proceed : Exec NetError Connection Flow) := by
    cases env.statusToJson (StatusResponseJson.new s.config.motd s.config.maxPlayers 0) with
    | error reason =>
        intro s₁
        exact h.violation rfl rfl rfl
    | ok json =>
        refine h.bind (h.pure json) fun json => ?_
        exact h.bind (h.send _) fun _ => h.pure _
  have hmarked : R s { s with state := { s.state with statusRequestSeen := true } } := h.silent rfl rfl
  exact (hrest _).mono (fun _ _ hR => h.trans hmarked hR) fun _ _ hE => h.fails hmarked hE

theorem negotiateCompression (h : Discipline env R E) : Keeps R E (Connection.negotiateCompression env) := by
  intro s
  simp only [Connection.negotiateCompression, Exec.bind_apply, Exec.state_apply, Outcome.bind_ok]
  cases s.config.compressionThreshold with
  | none => exact h.silent rfl rfl
  | some threshold =>
      have hswitch : Keeps R E (Exec.modify (fun s => { s with codec := s.codec.setCompression threshold }) :
          Exec NetError Connection Unit) :=
        h.of_silent fun _ => ⟨rfl, rfl⟩
      exact h.bind (h.send _) (fun _ => hswitch) s

theorem validateUsername_error {name : String} {e : NetError} (h : validateUsername name = .error e) :
    e.isTransportNoise = false := by
  unfold validateUsername at h
  dsimp only at h
  split_ifs at h
  obtain rfl := Except.error.inj h
  rfl

theorem handleLoginStart (h : Discipline env R E) (frame : RawPacket) :
    Keeps R E (Connection.handleLoginStart env frame) := by
  refine h.bind (h.decodeAs LoginStart frame) fun start => ?_
  cases hvalid : validateUsername start.name with
  | error error =>
      have hpacket : Keeps R E (Exec.mapError .protocol (Exec.ofExcept (LoginDisconnect.fromComponent
          env.textToJson refusal)) : Exec NetError Connection LoginDisconnect) := by
        unfold LoginDisconnect.fromComponent
        cases env.textToJson refusal with
        | ok reason => exact h.pure _
        | error reason => exact h.throw rfl
      refine h.bind hpacket fun packet => h.bind (h.send _) fun _ => ?_
      exact h.throw (validateUsername_error hvalid)
  | ok u =>
      refine h.bind h.negotiateCompression fun _ => ?_
      exact h.bind (h.send _) fun _ => h.pure _

/-- **The rule for handlers.** Whatever the sends keep to, handling a frame keeps to. -/
theorem handle (h : Discipline env R E) (frame : RawPacket) : Keeps R E (Connection.handle env frame) := by
  intro s
  rw [handle_eq]
  cases selected s.state.current frame.id with
  | none => exact h.violation rfl rfl rfl
  | some kind =>
      cases kind with
      | handshake =>
          refine h.bind (h.decodeAs Handshake frame) (fun handshake => ?_) s
          cases handshake.nextState with
          | status => exact h.bind (h.transition _) fun _ => h.pure _
          | login => exact h.bind (h.transition _) fun _ => h.pure _
          | transfer => exact h.bind (h.transition _) fun _ => h.pure _
      | statusRequest => exact h.handleStatusRequest s
      | pingRequest =>
          refine h.bind (h.decodeAs PingRequest frame) (fun ping => ?_) s
          exact h.bind (h.send _) fun _ => h.pure _
      | loginStart => exact h.handleLoginStart frame s
      | loginAcknowledged => exact h.bind (h.transition _) (fun _ => h.pure _) s

end Discipline

end Pyrite.Net
