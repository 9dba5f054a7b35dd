import Pyrite.Protocol.Buf

set_option autoImplicit false

/-! # Packets

`crates/protocol/src/packets/`: the `Packet` trait and its ten implementations. A packet encodes and
decodes its body only; the length prefix and the packet ID belong to the framing codec. -/

namespace Pyrite.Protocol

open Wire

/-- The connection state a packet belongs to. -/
inductive State where
  | handshaking
  | status
  | login
  | configuration
  | play
  deriving DecidableEq, Repr

/-- Which way a packet travels on the wire. -/
inductive Direction where
  | serverbound
  | clientbound
  deriving DecidableEq, Repr

/-- A single protocol packet. -/
class Packet (P : Type) where
  /-- The packet's ID within its state and direction. -/
  id : Int32
  state : State
  direction : Direction
  /-- Write the packet body. -/
  encode : P → Put ProtocolError Unit
  /-- Read a packet body. -/
  decode : Target → Exec ProtocolError Bytes P

/-! ## Handshake -/

/-- `MAX_SERVER_ADDRESS_CHARS` -/
def maxServerAddressChars : Nat := 255

/-- The state a client asks to move into after the handshake. -/
inductive NextState where
  | status
  | login
  | transfer
  deriving DecidableEq, Repr

/-- `next_state as i32` -/
def NextState.toInt32 : NextState → Int32
  | .status => 1
  | .login => 2
  | .transfer => 3

/-- `NextState::try_from` -/
def NextState.tryFrom (value : Int32) : Except ProtocolError NextState :=
  if value = 1 then .ok .status
  else if value = 2 then .ok .login
  else if value = 3 then .ok .transfer
  else .error (.invalidNextState value)

/-- The first packet of every connection. -/
structure Handshake where
  protocolVersion : Int32
  serverAddress : String
  serverPort : UInt16
  nextState : NextState
  deriving DecidableEq, Repr

instance : Packet Handshake where
  id := 0x00
  state := .handshaking
  direction := .serverbound
  encode self := do
    writeVarint self.protocolVersion
    writeString self.serverAddress
    writeU16 self.serverPort
    writeVarint self.nextState.toInt32
  decode t := do
    let protocolVersion ← readVarint t
    let serverAddress ← readString t maxServerAddressChars
    let serverPort ← readU16
    let nextState ← Exec.ofExcept (NextState.tryFrom (← readVarint t))
    pure { protocolVersion, serverAddress, serverPort, nextState }

/-! ## Text -/

/-- A chat/text component. -/
structure TextComponent where
  text : String
  color : Option String
  bold : Option Bool
  italic : Option Bool
  extra : List TextComponent

def TextComponent.new (text : String) : TextComponent := ⟨text, none, none, none, []⟩

/-! ## Status -/

/-- `MAX_STATUS_JSON_CHARS` -/
def maxStatusJsonChars : Nat := 32767

/-- Sent by the client to ask for the server's status. -/
structure StatusRequest where
  deriving DecidableEq, Repr

instance : Packet StatusRequest where
  id := 0x00
  state := .status
  direction := .serverbound
  encode _ := pure ()
  decode _ := pure {}

/-- The server's answer to `StatusRequest`: one JSON string. -/
structure StatusResponse where
  json : String
  deriving DecidableEq, Repr

instance : Packet StatusResponse where
  id := 0x00
  state := .status
  direction := .clientbound
  encode self := writeString self.json
  decode t := do
    let json ← readString t maxStatusJsonChars
    pure { json }

/-- A latency probe. -/
structure PingRequest where
  payload : Int64
  deriving DecidableEq, Repr

instance : Packet PingRequest where
  id := 0x01
  state := .status
  direction := .serverbound
  encode self := writeI64 self.payload
  decode _ := do
    let payload ← readI64
    pure { payload }

/-- The echo of a `PingRequest`. -/
structure PongResponse where
  payload : Int64
  deriving DecidableEq, Repr

instance : Packet PongResponse where
  id := 0x01
  state := .status
  direction := .clientbound
  encode self := writeI64 self.payload
  decode _ := do
    let payload ← readI64
    pure { payload }

structure VersionInfo where
  name : String
  protocol : Int32

structure SamplePlayer where
  name : String
  id : String

structure PlayersInfo where
  max : Int32
  online : Int32
  sample : List SamplePlayer

/-- The JSON document carried inside `StatusResponse`. -/
structure StatusResponseJson where
  version : VersionInfo
  players : PlayersInfo
  description : TextComponent
  favicon : Option String
  enforcesSecureChat : Bool

/-- `PROTOCOL_VERSION` -/
def protocolVersion : Int32 := 776

/-- `VERSION_NAME` -/
def versionName : String := "26.2"

/-- A status document advertising this build's pinned version. -/
def StatusResponseJson.new (description : TextComponent) (maxPlayers onlinePlayers : Int32) :
    StatusResponseJson where
  version := { name := versionName, protocol := protocolVersion }
  players := { max := maxPlayers, online := onlinePlayers, sample := [] }
  description := description
  favicon := none
  enforcesSecureChat := false

/-! ## Login -/

/-- `MAX_DISCONNECT_REASON_CHARS` -/
def maxDisconnectReasonChars : Nat := 262144

/-- Tells a client in the login state why it is being refused. -/
structure LoginDisconnect where
  reason : String
  deriving DecidableEq, Repr

/-- A disconnect packet from a text component, with `serde_json::to_string` as `toJson`. -/
def LoginDisconnect.fromComponent (toJson : TextComponent → Except String String)
    (reason : TextComponent) : Except ProtocolError LoginDisconnect :=
  match toJson reason with
  | .ok reason => .ok { reason }
  | .error reason => .error (.json reason)

instance : Packet LoginDisconnect where
  id := 0x00
  state := .login
  direction := .clientbound
  encode self := writeString self.reason
  decode t := do
    let reason ← readString t maxDisconnectReasonChars
    pure { reason }

/-- `MAX_USERNAME_CHARS` -/
def maxUsernameChars : Nat := 16

/-- `MAX_PROPERTY_NAME_CHARS` -/
def maxPropertyNameChars : Nat := 64

/-- `MAX_PROPERTY_VALUE_CHARS` -/
def maxPropertyValueChars : Nat := 32767

/-- `MAX_SIGNATURE_CHARS` -/
def maxSignatureChars : Nat := 1024

/-- `MAX_PROFILE_PROPERTIES` -/
def maxProfileProperties : Nat := 16

/-- One signed key/value pair attached to a player's profile. -/
structure ProfileProperty where
  name : String
  value : String
  signature : Option String
  deriving DecidableEq, Repr

def ProfileProperty.encodeTo (self : ProfileProperty) : Put ProtocolError Unit := do
  writeString self.name
  writeString self.value
  writePrefixedOptional self.signature writeString

def ProfileProperty.decodeFrom (t : Target) : Exec ProtocolError Bytes ProfileProperty := do
  let name ← readString t maxPropertyNameChars
  let value ← readString t maxPropertyValueChars
  let signature ← readPrefixedOptional (readString t maxSignatureChars)
  pure { name, value, signature }

/-- A player's identity as the server reports it back to them. -/
structure GameProfile where
  uuid : BitVec 128
  username : String
  properties : List ProfileProperty
  deriving DecidableEq, Repr

def GameProfile.encodeTo (self : GameProfile) : Put ProtocolError Unit := do
  writeUuid self.uuid
  writeString self.username
  writePrefixedArray self.properties ProfileProperty.encodeTo

def GameProfile.decodeFrom (t : Target) : Exec ProtocolError Bytes GameProfile := do
  let uuid ← readUuid
  let username ← readString t maxUsernameChars
  let properties ← readPrefixedArray t maxProfileProperties (ProfileProperty.decodeFrom t)
  pure { uuid, username, properties }

/-- The first packet of the login sequence. The UUID is the client's claim. -/
structure LoginStart where
  name : String
  uuid : BitVec 128
  deriving DecidableEq, Repr

instance : Packet LoginStart where
  id := 0x00
  state := .login
  direction := .serverbound
  encode self := do
    writeString self.name
    writeUuid self.uuid
  decode t := do
    let name ← readString t maxUsernameChars
    let uuid ← readUuid
    pure { name, uuid }

/-- Switches the connection to the compressed frame format. -/
structure SetCompression where
  threshold : Int32
  deriving DecidableEq, Repr

instance : Packet SetCompression where
  id := 0x03
  state := .login
  direction := .clientbound
  encode self := writeVarint self.threshold
  decode t := do
    let threshold ← readVarint t
    pure { threshold }

/-- Confirms login and tells the client the identity it was granted. -/
structure LoginSuccess where
  profile : GameProfile
  sessionId : BitVec 128
  deriving DecidableEq, Repr

instance : Packet LoginSuccess where
  id := 0x02
  state := .login
  direction := .clientbound
  encode self := do
    self.profile.encodeTo
    writeUuid self.sessionId
  decode t := do
    let profile ← GameProfile.decodeFrom t
    let sessionId ← readUuid
    pure { profile, sessionId }

/-- The client's acknowledgement of `LoginSuccess`. -/
structure LoginAcknowledged where
  deriving DecidableEq, Repr

instance : Packet LoginAcknowledged where
  id := 0x03
  state := .login
  direction := .serverbound
  encode _ := pure ()
  decode _ := pure {}

/-! ## Totality -/

/-- A packet type whose decoder ends with a packet or a typed error on every input. -/
class TotalPacket (P : Type) [Packet P] : Prop where
  decode_total : ∀ t, (Packet.decode t : Exec ProtocolError Bytes P).Total

theorem NextState.tryFrom_total {σ : Type} (value : Int32) :
    (Exec.ofExcept (NextState.tryFrom value) : Exec ProtocolError σ NextState).Total := by
  cases NextState.tryFrom value with
  | ok nextState => exact Exec.total_pure nextState
  | error e => exact Exec.total_throw e

theorem ProfileProperty.decodeFrom_total (t : Target) : (ProfileProperty.decodeFrom t).Total :=
  (readString_total t _).bind fun _ => (readString_total t _).bind fun _ =>
    (readPrefixedOptional_total (readString_total t _)).bind fun _ => Exec.total_pure _

theorem GameProfile.decodeFrom_total (t : Target) : (GameProfile.decodeFrom t).Total :=
  readUuid_total.bind fun _ => (readString_total t _).bind fun _ =>
    (readPrefixedArray_total t _ (ProfileProperty.decodeFrom_total t)).bind fun _ => Exec.total_pure _

instance : TotalPacket Handshake where
  decode_total t := (readVarint_total t).bind fun _ => (readString_total t _).bind fun _ =>
    readU16_total.bind fun _ => (readVarint_total t).bind fun value =>
      (NextState.tryFrom_total value).bind fun _ => Exec.total_pure _

instance : TotalPacket StatusRequest where
  decode_total _ := Exec.total_pure _

instance : TotalPacket StatusResponse where
  decode_total t := (readString_total t _).bind fun _ => Exec.total_pure _

instance : TotalPacket PingRequest where
  decode_total _ := readI64_total.bind fun _ => Exec.total_pure _

instance : TotalPacket PongResponse where
  decode_total _ := readI64_total.bind fun _ => Exec.total_pure _

instance : TotalPacket LoginDisconnect where
  decode_total t := (readString_total t _).bind fun _ => Exec.total_pure _

instance : TotalPacket LoginStart where
  decode_total t := (readString_total t _).bind fun _ => readUuid_total.bind fun _ => Exec.total_pure _

instance : TotalPacket SetCompression where
  decode_total t := (readVarint_total t).bind fun _ => Exec.total_pure _

instance : TotalPacket LoginSuccess where
  decode_total t := (GameProfile.decodeFrom_total t).bind fun _ => readUuid_total.bind fun _ =>
    Exec.total_pure _

instance : TotalPacket LoginAcknowledged where
  decode_total _ := Exec.total_pure _

end Pyrite.Protocol
