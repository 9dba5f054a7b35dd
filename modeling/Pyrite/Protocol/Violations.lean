import Pyrite.Protocol.Framing
import Pyrite.Wire.Partial

set_option autoImplicit false

/-! # Protocol violations

No decoder reports a transport error, `ProtocolError::Io`, whatever the bytes: what the inflater reports is
renamed on the way, and every other failure has a name of its own. -/

namespace Pyrite.Protocol

open Wire

variable {σ α : Type}

/-- The error is that of the transport. -/
def ProtocolError.isIo : ProtocolError → Bool
  | .io _ => true
  | _ => false

/-- The computation fails with protocol violations only. -/
def Violates (m : Exec ProtocolError σ α) : Prop := Exec.OnlyRaises (fun e => e.isIo = false) m

/-! ## Fields -/

theorem violates_varint (t : Target) : Violates (readVarint t) := by
  intro src
  rw [readVarint_eq]
  cases scan maxVarintLen src with
  | complete n => trivial
  | short => rfl
  | tooLong => rfl

theorem violates_word [Word α] (size : Nat) : Violates (readWord size : Exec ProtocolError Bytes α) :=
  Exec.onlyRaises_remaining.bind fun _ => Exec.OnlyRaises.ite (Exec.onlyRaises_throw rfl) Exec.onlyRaises_get

theorem violates_string (t : Target) (maxChars : Nat) : Violates (readString t maxChars) := by
  refine (violates_varint t).bind fun declared => ?_
  cases Target.tryFromInt32 declared with
  | none => exact Exec.onlyRaises_throw rfl
  | some len =>
      refine Exec.OnlyRaises.ite (Exec.onlyRaises_throw rfl) ?_
      refine Exec.onlyRaises_remaining.bind fun remaining => ?_
      refine Exec.OnlyRaises.ite (Exec.onlyRaises_throw rfl) ?_
      refine (Exec.onlyRaises_take len).bind fun bytes => ?_
      cases fromUtf8 bytes with
      | none => exact Exec.onlyRaises_throw rfl
      | some value => exact Exec.onlyRaises_pure value

theorem violates_array (t : Target) (maxLen : Nat) {readItem : Exec ProtocolError Bytes α}
    (hitem : Violates readItem) : Violates (readPrefixedArray t maxLen readItem) := by
  refine (violates_varint t).bind fun declared => ?_
  cases Target.tryFromInt32 declared with
  | none => exact Exec.onlyRaises_throw rfl
  | some len => exact Exec.OnlyRaises.ite (Exec.onlyRaises_throw rfl) (hitem.times len)

theorem violates_optional {readValue : Exec ProtocolError Bytes α} (hvalue : Violates readValue) :
    Violates (readPrefixedOptional readValue) := by
  refine Exec.onlyRaises_remaining.bind fun remaining => ?_
  refine Exec.OnlyRaises.ite (Exec.onlyRaises_throw rfl) ?_
  refine Exec.onlyRaises_get.bind fun tag => ?_
  refine Exec.OnlyRaises.ite (Exec.onlyRaises_pure none) ?_
  exact Exec.OnlyRaises.ite (hvalue.bind fun _ => Exec.onlyRaises_pure _) (Exec.onlyRaises_throw rfl)

/-! ## Packets -/

/-- A packet type whose decoder fails with violations only. -/
class ViolatingPacket (P : Type) [Packet P] : Prop where
  decode_violates : ∀ t, Violates (Packet.decode t : Exec ProtocolError Bytes P)

theorem ProfileProperty.decodeFrom_violates (t : Target) : Violates (ProfileProperty.decodeFrom t) :=
  (violates_string t _).bind fun _ => (violates_string t _).bind fun _ =>
    (violates_optional (violates_string t _)).bind fun _ => Exec.onlyRaises_pure _

theorem GameProfile.decodeFrom_violates (t : Target) : Violates (GameProfile.decodeFrom t) :=
  (violates_word _).bind fun _ => (violates_string t _).bind fun _ =>
    (violates_array t _ (ProfileProperty.decodeFrom_violates t)).bind fun _ => Exec.onlyRaises_pure _

theorem NextState.tryFrom_violates (value : Int32) :
    Violates (Exec.ofExcept (NextState.tryFrom value) : Exec ProtocolError σ NextState) := by
  unfold NextState.tryFrom
  split_ifs
  · exact Exec.onlyRaises_pure _
  · exact Exec.onlyRaises_pure _
  · exact Exec.onlyRaises_pure _
  · exact Exec.onlyRaises_throw rfl

instance : ViolatingPacket Handshake where
  decode_violates t := (violates_varint t).bind fun _ => (violates_string t _).bind fun _ =>
    (violates_word _).bind fun _ => (violates_varint t).bind fun value =>
      (NextState.tryFrom_violates value).bind fun _ => Exec.onlyRaises_pure _

instance : ViolatingPacket StatusRequest where
  decode_violates _ := Exec.onlyRaises_pure _

instance : ViolatingPacket StatusResponse where
  decode_violates t := (violates_string t _).bind fun _ => Exec.onlyRaises_pure _

instance : ViolatingPacket PingRequest where
  decode_violates _ := (violates_word _).bind fun _ => Exec.onlyRaises_pure _

instance : ViolatingPacket PongResponse where
  decode_violates _ := (violates_word _).bind fun _ => Exec.onlyRaises_pure _

instance : ViolatingPacket LoginDisconnect where
  decode_violates t := (violates_string t _).bind fun _ => Exec.onlyRaises_pure _

instance : ViolatingPacket LoginStart where
  decode_violates t := (violates_string t _).bind fun _ => (violates_word _).bind fun _ =>
    Exec.onlyRaises_pure _

instance : ViolatingPacket SetCompression where
  decode_violates t := (violates_varint t).bind fun _ => Exec.onlyRaises_pure _

instance : ViolatingPacket LoginSuccess where
  decode_violates t := (GameProfile.decodeFrom_violates t).bind fun _ => (violates_word _).bind fun _ =>
    Exec.onlyRaises_pure _

instance : ViolatingPacket LoginAcknowledged where
  decode_violates _ := Exec.onlyRaises_pure _

theorem decodeAs_violates (P : Type) [Packet P] [ViolatingPacket P] (t : Target) (frame : RawPacket) :
    Violates (frame.decodeAs P t : Exec ProtocolError σ P) :=
  ((ViolatingPacket.decode_violates t).locally frame.body).bind fun _ =>
    Exec.OnlyRaises.ite (Exec.onlyRaises_throw rfl) (Exec.onlyRaises_pure _)

/-! ## Frames -/

theorem decompress_violates (z : Zlib) (t : Target) (frame : Bytes) (threshold : Int32) :
    Violates (PacketCodec.decompress z t frame threshold : Exec ProtocolError σ Bytes) := by
  refine ((violates_varint t).locally frame).bind fun r => ?_
  obtain ⟨declared, frame⟩ := r
  dsimp only
  cases Target.tryFromInt32 declared with
  | none => exact Exec.onlyRaises_throw rfl
  | some dataLength =>
      dsimp only
      refine Exec.OnlyRaises.ite (Exec.onlyRaises_pure _) ?_
      refine Exec.OnlyRaises.ite (Exec.onlyRaises_throw rfl) ?_
      refine Exec.OnlyRaises.ite (Exec.onlyRaises_throw rfl) ?_
      cases (z.inflate frame).readToEnd (dataLength + 1) with
      -- the inflater's error is renamed
      | error reason => exact Exec.onlyRaises_throw rfl
      | ok out => exact Exec.OnlyRaises.ite (Exec.onlyRaises_throw rfl) (Exec.onlyRaises_pure _)

theorem decodeFrame_violates (z : Zlib) (t : Target) (codec : PacketCodec) (frame : Bytes) :
    Violates (codec.decodeFrame z t frame : Exec ProtocolError σ RawPacket) := by
  have hopen : Violates (codec.openFrame z t frame : Exec ProtocolError σ Bytes) := by
    unfold PacketCodec.openFrame
    cases codec.compressionThreshold with
    | none => exact Exec.onlyRaises_pure frame
    | some threshold => exact decompress_violates z t frame threshold
  exact hopen.bind fun body => ((violates_varint t).locally body).bind fun _ => Exec.onlyRaises_pure _

theorem frontFrame_violates {src : Bytes} {n : Nat} {declared : Int32} {e : ProtocolError}
    (h : frontFrame src n declared = .rejected e) : e.isIo = false := by
  unfold frontFrame at h
  cases hlen : Target.tryFromInt32 declared with
  | none =>
      rw [hlen] at h
      obtain rfl := Front.rejected.inj h
      rfl
  | some len =>
      rw [hlen] at h
      dsimp only at h
      split_ifs at h
      obtain rfl := Front.rejected.inj h
      rfl

theorem decode_violates (z : Zlib) (t : Target) (codec : PacketCodec) : Violates (codec.decode z t) := by
  intro src
  rw [decode_eq]
  cases hfront : front src with
  | incomplete => trivial
  | rejected e =>
      show e.isIo = false
      unfold front at hfront
      cases hscan : scan maxVarintLen src with
      | short => simp [hscan] at hfront
      | tooLong =>
          simp only [hscan] at hfront
          obtain rfl := Front.rejected.inj hfront
          rfl
      | complete n =>
          simp only [hscan] at hfront
          exact frontFrame_violates hfront
  | frame payload rest =>
      exact (decodeFrame_violates z t codec payload).bind (fun _ => Exec.onlyRaises_pure _) rest

end Pyrite.Protocol
