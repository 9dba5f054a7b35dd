import Pyrite.Protocol.Framing

set_option autoImplicit false

/-! # One client connection

`crates/net/src/`: the state machine, offline identity, and the frame dispatcher of `connection.rs`.

A `Connection` is what the server holds for one client, with everything it has handed to the transport
so far (`written`). `sent` is not in the source: it logs each packet together with the compression
threshold it was encoded under, so that statements about the packets of a run can be made. `debug!`
lines are left out. What the code takes from other crates is collected in `Env`: the compressor, MD5,
the JSON serialiser, and the transport, whose answer to a flush may be an error at any point. -/

namespace Pyrite.Net

open Wire Protocol

/-! ## Errors -/

/-- Everything that can go wrong on a single connection. -/
inductive NetError where
  | protocol (error : ProtocolError)
  | illegalTransition (source target : State)
  | unexpectedPacket (state : State) (id : Int32)
  | duplicateStatusRequest
  | invalidUsername (name : String)
  | timeout
  deriving DecidableEq, Repr

/-- Whether this error is ordinary transport noise rather than a protocol violation. -/
def NetError.isTransportNoise : NetError → Bool
  | .timeout => true
  | .protocol (.io _) => true
  | _ => false

/-! ## The state machine -/

/-- Which protocol state a connection is in. -/
structure ConnectionState where
  current : State
  statusRequestSeen : Bool
  deriving DecidableEq, Repr

namespace ConnectionState

def new : ConnectionState := ⟨.handshaking, false⟩

/-- The legal moves. -/
def permitted : State → State → Bool
  | .handshaking, .status => true
  | .handshaking, .login => true
  | .login, .configuration => true
  | _, _ => false

/-- Move to `target`, or reject the move. -/
def transition (self : ConnectionState) (target : State) : Except NetError ConnectionState :=
  if permitted self.current target then .ok { self with current := target }
  else .error (.illegalTransition self.current target)

/-- Record that a status request was received, rejecting duplicates. -/
def markStatusRequestSeen (self : ConnectionState) : Except NetError ConnectionState :=
  if self.statusRequestSeen then .error .duplicateStatusRequest
  else .ok { self with statusRequestSeen := true }

end ConnectionState

/-! ## Offline identity -/

/-- `MAX_USERNAME_CHARS` of `offline.rs` -/
def maxUsernameChars : Nat := 16

/-- Check that a username is one the server will accept: one to sixteen characters of `[a-zA-Z0-9_]`. -/
def validateUsername (name : String) : Except NetError Unit :=
  let valid := name ≠ "" ∧ name.toList.length ≤ maxUsernameChars ∧
    name.toList.all (fun c => c.isAlphanum || c == '_')
  if valid then .ok () else .error (.invalidUsername name)

/-- Derive the offline-mode UUID for a username: an MD5 digest with the version nibble and the variant
    bits overwritten. -/
def offlineUuid (md5 : Bytes → Vector UInt8 16) (username : String) : BitVec 128 :=
  let bytes := md5 (utf8 "OfflinePlayer:" ++ utf8 username)
  let bytes := bytes.set 6 ((bytes[6] &&& 0x0f) ||| 0x30)
  let bytes := bytes.set 8 ((bytes[8] &&& 0x3f) ||| 0x80)
  Word.ofNat (ofBe bytes.toList)

/-! ## Connections -/

/-- Settings shared by every connection. The read timeout is left out: that it elapsed is an input. -/
structure ServerConfig where
  motd : TextComponent
  maxPlayers : Int32
  compressionThreshold : Option Int32

/-- The default configuration. -/
def ServerConfig.default : ServerConfig := ⟨.new "A Pyrite Server", 20, some 256⟩

/-- What a connection takes from other crates and from the machine. -/
structure Env where
  target : Target
  zlib : Zlib
  /-- `Md5`: the digest of a byte string. -/
  md5 : Bytes → Vector UInt8 16
  /-- `serde_json::to_string` of a text component. -/
  textToJson : TextComponent → Except String String
  /-- `serde_json::to_string` of a status document. -/
  statusToJson : StatusResponseJson → Except String String
  /-- The transport's answer when it is asked to flush, after everything written so far. -/
  flush : Bytes → Except String Unit

/-- The packets the server sends. -/
inductive Clientbound where
  | statusResponse (packet : StatusResponse)
  | pongResponse (packet : PongResponse)
  | loginDisconnect (packet : LoginDisconnect)
  | setCompression (packet : SetCompression)
  | loginSuccess (packet : LoginSuccess)
  deriving DecidableEq, Repr

/-- `encode` at the packet's own type. -/
def Clientbound.encode (env : Env) (codec : PacketCodec) (dst : Bytes) :
    Clientbound → Outcome ProtocolError (PacketCodec × Bytes) Unit
  | .statusResponse packet => codec.encode env.zlib env.target packet dst
  | .pongResponse packet => codec.encode env.zlib env.target packet dst
  | .loginDisconnect packet => codec.encode env.zlib env.target packet dst
  | .setCompression packet => codec.encode env.zlib env.target packet dst
  | .loginSuccess packet => codec.encode env.zlib env.target packet dst

/-- A packet that was handed to the transport, and the threshold of the codec that encoded it. -/
structure Emitted where
  packet : Clientbound
  threshold : Option Int32
  deriving DecidableEq, Repr

/-- One client connection. -/
structure Connection where
  codec : PacketCodec
  state : ConnectionState
  config : ServerConfig
  written : Bytes
  sent : List Emitted

/-- Whether the read loop should continue or shut the connection down. -/
inductive Flow where
  | proceed
  | close
  deriving DecidableEq, Repr

namespace Connection

/-- A freshly accepted connection. -/
def new (config : ServerConfig) : Connection := ⟨.new, .new, config, [], []⟩

/-- `framed.send`: encode the packet behind what was written before, then flush. -/
def send (env : Env) (packet : Clientbound) : Exec NetError Connection Unit := fun s =>
  match packet.encode env s.codec s.written with
  | .ok () (codec, written) =>
    let s' := { s with
      codec
      written
      sent := s.sent ++ [{ packet, threshold := s.codec.compressionThreshold }] }
    match env.flush written with
    | .ok () => .ok () s'
    | .error reason => .error (.protocol (.io reason)) s'
  | .error e (codec, written) => .error (.protocol e) { s with codec, written }
  | .panic => .panic
  | .diverge => .diverge

/-- `frame.decode_as()?` -/
def decodeAs (P : Type) [Packet P] (env : Env) (frame : RawPacket) : Exec NetError Connection P :=
  Exec.mapError .protocol (frame.decodeAs P env.target)

/-- `self.state.transition(target)?` -/
def transition (target : State) : Exec NetError Connection Unit := do
  let s ← Exec.state
  let state ← Exec.ofExcept (s.state.transition target)
  Exec.setState { s with state }

/-- Handle the handshake. -/
def handleHandshake (env : Env) (frame : RawPacket) : Exec NetError Connection Flow := do
  let handshake ← decodeAs Handshake env frame
  match handshake.nextState with
  | .status => do
    transition .status
    pure .proceed
  -- a transferred client is mid-login
  | .login | .transfer => do
    transition .login
    pure .proceed

/-- Answer a status request. The body of the frame is not looked at. -/
def handleStatusRequest (env : Env) : Exec NetError Connection Flow := do
  let s ← Exec.state
  let state ← Exec.ofExcept s.state.markStatusRequestSeen
  Exec.setState { s with state }
  let status := StatusResponseJson.new s.config.motd s.config.maxPlayers 0
  let json ← Exec.mapError (fun reason => .protocol (.json reason)) (Exec.ofExcept (env.statusToJson status))
  send env (.statusResponse { json })
  pure .proceed

/-- Echo a ping payload and close the connection. -/
def handlePing (env : Env) (frame : RawPacket) : Exec NetError Connection Flow := do
  let ping ← decodeAs PingRequest env frame
  send env (.pongResponse { payload := ping.payload })
  pure .close

/-- The part of `handleLoginStart` that announces compression and then switches the codec. -/
def negotiateCompression (env : Env) : Exec NetError Connection Unit := do
  let s ← Exec.state
  match s.config.compressionThreshold with
  | some threshold => do
    send env (.setCompression { threshold })
    Exec.modify fun s => { s with codec := s.codec.setCompression threshold }
  | none => pure ()

/-- Handle a login request. -/
def handleLoginStart (env : Env) (frame : RawPacket) : Exec NetError Connection Flow := do
  let start ← decodeAs LoginStart env frame
  match validateUsername start.name with
  | .error error => do
    let packet ← Exec.mapError .protocol (Exec.ofExcept (LoginDisconnect.fromComponent env.textToJson
      (.new "Invalid username. Use 1-16 characters of A-Z, a-z, 0-9 or _.")))
    send env (.loginDisconnect packet)
    Exec.throw error
  | .ok () => do
    -- the UUID in the packet is the client's claim and is discarded
    let uuid := offlineUuid env.md5 start.name
    negotiateCompression env
    send env (.loginSuccess
      { profile := { uuid, username := start.name, properties := [] }, sessionId := uuid })
    pure .proceed

/-- Handle the acknowledgement. The body of the frame is not looked at. -/
def handleLoginAcknowledged : Exec NetError Connection Flow := do
  transition .configuration
  pure .proceed

/-- Dispatch one frame based on the current state and its packet ID. -/
def handle (env : Env) (frame : RawPacket) : Exec NetError Connection Flow := do
  let s ← Exec.state
  let state := s.state.current
  if state = .handshaking ∧ frame.id = Packet.id Handshake then handleHandshake env frame
  else if state = .status ∧ frame.id = Packet.id StatusRequest then handleStatusRequest env
  else if state = .status ∧ frame.id = Packet.id PingRequest then handlePing env frame
  else if state = .login ∧ frame.id = Packet.id LoginStart then handleLoginStart env frame
  else if state = .login ∧ frame.id = Packet.id LoginAcknowledged then handleLoginAcknowledged
  else Exec.throw (.unexpectedPacket state frame.id)

/-- What waiting for the next frame ends with. -/
inductive Input where
  | frame (frame : RawPacket)
  /-- The codec rejected the bytes, or the transport failed. -/
  | invalid (error : ProtocolError)
  | closed
  | elapsed

/-- Service the connection until it closes or errors; `proceed` when the inputs run out first. -/
def run (env : Env) : List Input → Exec NetError Connection Flow
  | [] => pure .proceed
  | .elapsed :: _ => Exec.throw .timeout
  | .closed :: _ => pure .close
  | .invalid error :: _ => Exec.throw (.protocol error)
  | .frame frame :: inputs => do
    let flow ← handle env frame
    if flow = .close then pure .close
    else run env inputs

end Connection

end Pyrite.Net
