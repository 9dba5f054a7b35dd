import Pyrite.Net.Readable
import Pyrite.Net.Transport
import Pyrite.Wire.Duplex

set_option autoImplicit false

/-! # The other end of a connection

`crates/net/tests/`: the clients that the end-to-end tests drive against a server, over the same codec. A
client sends its handshake and its first request, and after that answers what it reads: the login client
switches compression where it is announced and acknowledges its success, and the status client pings once
it has the status. Where a test would fail, on a packet that it does not expect, the client ends.

The module ends with what a party does with one whole frame of the other. -/

namespace Pyrite.Net

open Wire Protocol

/-! ## Clients -/

/-- A client: its codec, what it has sent and what it has received. -/
structure Client where
  codec : PacketCodec
  written : Bytes
  received : List Clientbound

/-- How a client has ended. -/
structure Farewell where
  client : Client
  /-- It has received all that it expected. -/
  satisfied : Bool

namespace Client

def new : Client := ⟨.new, [], []⟩

/-- `client.send(packet).await.unwrap()` -/
def send {P : Type} [Packet P] (z : Zlib) (t : Target) (packet : P) (self : Client) : Option Client :=
  match self.codec.encode z t packet self.written with
  | .ok () (codec, written) => some { self with codec, written }
  | _ => none

/-- `frame.decode_as().unwrap()` -/
def decodeAs (P : Type) [Packet P] (t : Target) (frame : RawPacket) : Option P :=
  match (frame.decodeAs P t : Exec ProtocolError Unit P) () with
  | .ok packet () => some packet
  | _ => none

def hears (self : Client) (packet : Clientbound) : Client := { self with received := self.received ++ [packet] }

/-- Go on with what became of the client, or give up. -/
def orFail (self : Client) : Option Client → Framed Client Farewell
  | some client => .waiting client
  | none => .ended { client := self, satisfied := false }

/-- The client of a login. -/
def onLoginPacket (z : Zlib) (t : Target) (self : Client) (frame : RawPacket) : Framed Client Farewell :=
  if frame.id = Packet.id SetCompression then
    self.orFail do
      let set ← decodeAs SetCompression t frame
      -- from here on the client speaks the compressed format too
      let self := self.hears (.setCompression set)
      pure { self with codec := self.codec.setCompression set.threshold }
  else if frame.id = Packet.id LoginSuccess then
    self.orFail do
      let success ← decodeAs LoginSuccess t frame
      (self.hears (.loginSuccess success)).send z t ({} : LoginAcknowledged)
  else if frame.id = Packet.id LoginDisconnect then
    match decodeAs LoginDisconnect t frame with
    | some disconnect => .ended { client := self.hears (.loginDisconnect disconnect), satisfied := true }
    | none => .ended { client := self, satisfied := false }
  else .ended { client := self, satisfied := false }

/-- The client of a status exchange, with the payload it pings with. -/
def onStatusPacket (z : Zlib) (t : Target) (payload : Int64) (self : Client) (frame : RawPacket) :
    Framed Client Farewell :=
  if frame.id = Packet.id StatusResponse then
    self.orFail do
      let response ← decodeAs StatusResponse t frame
      (self.hears (.statusResponse response)).send z t ({ payload } : PingRequest)
  else if frame.id = Packet.id PongResponse then
    match decodeAs PongResponse t frame with
    | some pong => .ended { client := self.hears (.pongResponse pong), satisfied := true }
    | none => .ended { client := self, satisfied := false }
  else .ended { client := self, satisfied := false }

/-- A client's end of a connection. -/
def clientEnd (onPacket : Client → RawPacket → Framed Client Farewell) : Endpoint Client Farewell where
  codec self := self.codec
  onPacket
  onError self _ := { client := self, satisfied := false }
  onPanic := { client := .new, satisfied := false }

end Client

/-! ## What was written -/

/-- What a client has sent. -/
def Client.output : Framed Client Farewell → Bytes
  | .waiting client => client.written
  | .ended farewell => farewell.client.written

/-- What a server has sent. -/
def Service.output : Service → Bytes
  | .waiting s => s.written
  | .ended (.ok () s) => s.written
  | .ended (.error _ s) => s.written
  | .ended _ => []

theorem FramesOf.append {z : Zlib} {xs ys : List Emitted} {first second : Bytes} (hxs : FramesOf z xs first)
    (hys : FramesOf z ys second) : FramesOf z (xs ++ ys) (first ++ second) := by
  induction xs generalizing first with
  | nil =>
      obtain rfl : first = [] := hxs
      exact hys
  | cons e xs ih =>
      obtain ⟨p, rest, hframe, rfl, hrest⟩ := hxs
      exact ⟨p, rest ++ second, hframe, List.append_assoc _ _ _, ih hrest⟩

/-- `s'` has sent and written more than `s`, and what it has written more is what it has sent more. -/
def Appended (env : Env) (s s' : Connection) : Prop :=
  ∃ entries more, s'.sent = s.sent ++ entries ∧ s'.written = s.written ++ more ∧ FramesOf env.zlib entries more

theorem Appended.trans {env : Env} {s s₁ s₂ : Connection} (h₁ : Appended env s s₁) (h₂ : Appended env s₁ s₂) :
    Appended env s s₂ := by
  obtain ⟨xs, first, hsent, hwritten, hxs⟩ := h₁
  obtain ⟨ys, second, hsent', hwritten', hys⟩ := h₂
  refine ⟨xs ++ ys, first ++ second, ?_, ?_, hxs.append hys⟩
  · rw [hsent', hsent, List.append_assoc]
  · rw [hwritten', hwritten, List.append_assoc]

theorem Appended.of_same {env : Env} {s s' : Connection} (hwritten : s'.written = s.written)
    (hsent : s'.sent = s.sent) : Appended env s s' :=
  ⟨[], [], by rw [hsent, List.append_nil], by rw [hwritten, List.append_nil], rfl⟩

/-- Handling a frame appends the frames of the packets it sends, also when it fails. -/
theorem append_discipline (env : Env) :
    Discipline env (Appended env) (fun s _ s' => Appended env s s') where
  silent := Appended.of_same
  violation hwritten hsent _ := Appended.of_same hwritten hsent
  trans := Appended.trans
  fails := Appended.trans
  send packet s := by
    obtain ⟨codec, -, hcases⟩ := send_cases env packet s
    rcases hcases with ⟨p, hframe, -, hsend⟩ | ⟨p, reason, hframe, -, hsend⟩ | ⟨e, -, hsend⟩
    · rw [hsend]
      exact ⟨[_], frameBytes p, rfl, rfl, p, [], hframe, (List.append_nil _).symm, rfl⟩
    · rw [hsend]
      exact ⟨[_], frameBytes p, rfl, rfl, p, [], hframe, (List.append_nil _).symm, rfl⟩
    · rw [hsend]
      exact Appended.of_same rfl rfl

theorem server_writes (env : Env) : (serverReactor env).Writes Service.output := by
  intro f buffer f' rest hnext
  obtain ⟨s, rfl, ⟨e, -, rfl, -⟩ | ⟨packet, -, rfl, -⟩, -⟩ :=
    (serverEnd env).next_eq_some env.zlib env.target hnext
  · exact List.prefix_rfl
  · have happends := (append_discipline env).handle packet s
    have hspec := handle_spec env packet s
    show s.written <+: Service.output (Service.handled (Connection.handle env packet s))
    cases hhandle : Connection.handle env packet s with
    | ok flow s' =>
        rw [hhandle] at happends
        obtain ⟨-, more, -, hwritten, -⟩ := happends
        cases flow with
        | proceed => exact ⟨more, hwritten.symm⟩
        | close => exact ⟨more, hwritten.symm⟩
    | error e s' =>
        rw [hhandle] at happends
        obtain ⟨-, more, -, hwritten, -⟩ := happends
        exact ⟨more, hwritten.symm⟩
    | panic =>
        rw [hhandle] at hspec
        exact hspec.elim
    | diverge =>
        rw [hhandle] at hspec
        exact hspec.elim

theorem Client.send_written {P : Type} [Packet P] {z : Zlib} {t : Target} {packet : P} {self client : Client}
    (h : self.send z t packet = some client) : self.written <+: client.written := by
  unfold Client.send at h
  split at h
  · rename_i codec written hencode
    obtain rfl := Option.some.inj h
    obtain ⟨-, -, -, p, -, hwritten⟩ := encode_ok hencode
    exact ⟨frameBytes p, hwritten.symm⟩
  · cases h

theorem Client.orFail_written {self : Client} {next : Option Client}
    (h : ∀ client, next = some client → self.written <+: client.written) :
    self.written <+: Client.output (self.orFail next) := by
  cases next with
  | none => exact List.prefix_rfl
  | some client => exact h client rfl

theorem Client.onLoginPacket_written (z : Zlib) (t : Target) (self : Client) (frame : RawPacket) :
    self.written <+: Client.output (self.onLoginPacket z t frame) := by
  unfold Client.onLoginPacket
  split_ifs
  · refine Client.orFail_written fun client h => ?_
    obtain ⟨set, -, h⟩ := Option.bind_eq_some_iff.mp h
    obtain rfl := Option.some.inj h
    exact List.prefix_rfl
  · refine Client.orFail_written fun client h => ?_
    obtain ⟨success, -, h⟩ := Option.bind_eq_some_iff.mp h
    exact (Client.send_written h : (self.hears _).written <+: client.written)
  · split
    · exact List.prefix_rfl
    · exact List.prefix_rfl
  · exact List.prefix_rfl

theorem Client.onStatusPacket_written (z : Zlib) (t : Target) (payload : Int64) (self : Client)
    (frame : RawPacket) : self.written <+: Client.output (self.onStatusPacket z t payload frame) := by
  unfold Client.onStatusPacket
  split_ifs
  · refine Client.orFail_written fun client h => ?_
    obtain ⟨response, -, h⟩ := Option.bind_eq_some_iff.mp h
    exact (Client.send_written h : (self.hears _).written <+: client.written)
  · split
    · exact List.prefix_rfl
    · exact List.prefix_rfl
  · exact List.prefix_rfl

theorem client_writes {z : Zlib} {t : Target} {onPacket : Client → RawPacket → Framed Client Farewell}
    (h : ∀ client frame, client.written <+: Client.output (onPacket client frame)) :
    ((Client.clientEnd onPacket).reactor z t).Writes Client.output := by
  intro f buffer f' rest hnext
  obtain ⟨client, rfl, ⟨e, -, rfl, -⟩ | ⟨packet, -, rfl, -⟩, -⟩ :=
    (Client.clientEnd onPacket).next_eq_some z t hnext
  · exact List.prefix_rfl
  · exact h client packet

/-! ## What was received -/

/-- What a client has received. -/
def Client.heard : Framed Client Farewell → List Clientbound
  | .waiting client => client.received
  | .ended farewell => farewell.client.received

theorem Client.send_received {P : Type} [Packet P] {z : Zlib} {t : Target} {packet : P} {self client : Client}
    (h : self.send z t packet = some client) : client.received = self.received := by
  unfold Client.send at h
  split at h
  · rw [← Option.some.inj h]
  · cases h

theorem Client.orFail_heard {self : Client} {next : Option Client}
    (h : ∀ client, next = some client → self.received <+: client.received) :
    self.received <+: Client.heard (self.orFail next) := by
  cases next with
  | none => exact List.prefix_rfl
  | some client => exact h client rfl

/-- A client forgets nothing. -/
theorem Client.onLoginPacket_heard (z : Zlib) (t : Target) (self : Client) (frame : RawPacket) :
    self.received <+: Client.heard (self.onLoginPacket z t frame) := by
  unfold Client.onLoginPacket
  split_ifs
  · refine Client.orFail_heard fun client h => ?_
    obtain ⟨set, -, h⟩ := Option.bind_eq_some_iff.mp h
    obtain rfl := Option.some.inj h
    exact List.prefix_append _ _
  · refine Client.orFail_heard fun client h => ?_
    obtain ⟨success, -, h⟩ := Option.bind_eq_some_iff.mp h
    rw [Client.send_received h]
    exact List.prefix_append _ _
  · split
    · exact List.prefix_append _ _
    · exact List.prefix_rfl
  · exact List.prefix_rfl

theorem client_hears {z : Zlib} {t : Target} {onPacket : Client → RawPacket → Framed Client Farewell}
    (h : ∀ client frame, client.received <+: Client.heard (onPacket client frame))
    {f f' : Framed Client Farewell} {buffer rest : Bytes}
    (hnext : ((Client.clientEnd onPacket).reactor z t).next f buffer = some (f', rest)) :
    Client.heard f <+: Client.heard f' := by
  obtain ⟨client, rfl, ⟨e, -, rfl, -⟩ | ⟨packet, -, rfl, -⟩, -⟩ :=
    (Client.clientEnd onPacket).next_eq_some z t hnext
  · exact List.prefix_rfl
  · exact h client packet

/-! ## One frame -/

/-- The frame for a packet under a setting, within what a decoder accepts. -/
structure FramedAs (z : Zlib) (threshold : Option Int32) (packet p : Bytes) : Prop where
  small : packet.length ≤ maxPacketSize
  payload : payload z threshold packet = .ok p
  fits : p.length ≤ maxPacketSize

/-- Without compression the frame is the packet. -/
theorem framedAs_none {z : Zlib} {packet : Bytes} (h : packet.length ≤ maxPacketSize) :
    FramedAs z none packet packet := ⟨h, rfl, h⟩

/-- A short packet has a frame under every setting. -/
theorem framedAs_short {env : Env} (henv : Reliable env) (hshort : ShortLogins env) {packet : Bytes}
    (h : packet.length ≤ 600) (threshold : Option Int32) : ∃ p, FramedAs env.zlib threshold packet p := by
  obtain ⟨p, hp⟩ := payload_ok henv.deflates threshold packet
  exact ⟨p, le_trans h (by decide), hp, (fitsFrame_iff hp).mp (fitsFrame_of_short hshort h threshold)⟩

theorem FramedAs.of_frame {z : Zlib} {e : Emitted} {p : Bytes} (h : e.packet.frame z e.threshold = .ok p)
    (hfits : FitsFrame z e.threshold e.packet.bytes) : FramedAs z e.threshold e.packet.bytes p := by
  obtain ⟨hsmall, hpayload⟩ := Clientbound.frame_ok h
  exact ⟨hsmall, hpayload, (fitsFrame_iff hpayload).mp hfits⟩

/-- A party whose codec is in step takes a packet off the front. -/
theorem settle_frame {σ ω : Type} {e : Endpoint σ ω} {z : Zlib} (hz : z.Inverts) {t : Target} {s : σ} {id : Int32}
    {body p : Bytes} (h : FramedAs z (e.codec s).compressionThreshold (varintBytes id ++ body) p) (rest : Bytes) :
    (e.reactor z t).settle (.waiting s) (frameBytes p ++ rest)
      = (e.reactor z t).settle (e.onPacket s ⟨id, body⟩) rest :=
  Endpoint.settle_packet (decode_frameBytes hz t (e.codec s) h.small h.payload h.fits rest)

/-- The last packet that is there. -/
theorem settle_last {σ ω : Type} {e : Endpoint σ ω} {z : Zlib} (hz : z.Inverts) {t : Target} {s : σ} {id : Int32}
    {body p : Bytes} (h : FramedAs z (e.codec s).compressionThreshold (varintBytes id ++ body) p) :
    (e.reactor z t).settle (.waiting s) (frameBytes p) = (e.onPacket s ⟨id, body⟩, []) := by
  have hstep := settle_frame (t := t) hz h []
  rw [List.append_nil] at hstep
  exact hstep.trans (Endpoint.settle_nil _)

theorem Client.send_plain {P : Type} [Packet P] [PlainPacket P] {z : Zlib} (t : Target) (self : Client)
    (packet : P) {p : Bytes} (h : FramedAs z self.codec.compressionThreshold
      (varintBytes (Packet.id P) ++ PlainPacket.body packet) p) :
    ∃ codec, codec.compressionThreshold = self.codec.compressionThreshold ∧
      self.send z t packet = some { self with codec, written := self.written ++ frameBytes p } := by
  obtain ⟨codec, hsame, hencode⟩ := encode_plain z t self.codec packet self.written
  rw [if_neg (Nat.not_lt.mpr h.small), h.payload] at hencode
  exact ⟨codec, hsame, by simp only [Client.send, hencode]⟩

/-- A body that decodes with nothing left over. -/
theorem Client.decodeAs_of_decode {P : Type} [Packet P] {t : Target} {frame : RawPacket} {packet : P}
    (h : Packet.decode t frame.body = .ok packet []) : Client.decodeAs P t frame = some packet := by
  simp [Client.decodeAs, RawPacket.decodeAs, Exec.locally, h]

end Pyrite.Net
