import Pyrite.Protocol.Packets

set_option autoImplicit false

/-! # Length-prefixed packet framing

`crates/protocol/src/codec.rs`. The buffers are the lists of their bytes; `reserve` and
`Vec::with_capacity`, which only affect capacity, are left out together with `MAX_SPECULATIVE_RESERVE`.

`PacketCodec` carries what `set_compression` guarantees: a threshold is never negative. -/

namespace Pyrite.Protocol

open Wire

variable {σ P : Type}

/-- `MAX_PACKET_SIZE` -/
def maxPacketSize : Nat := 2097151

/-- A decoded frame: its packet ID and its still-encoded body. -/
structure RawPacket where
  id : Int32
  body : Bytes
  deriving DecidableEq, Repr

/-- Decode this frame's body as packet type `P`, all of it. -/
def RawPacket.decodeAs (P : Type) [Packet P] (t : Target) (self : RawPacket) : Exec ProtocolError σ P := do
  let (packet, body) ← Exec.locally (Packet.decode t) self.body
  if body.length ≠ 0 then Exec.throw (.trailingBytes body.length)
  else pure packet

/-- The framing codec. -/
structure PacketCodec where
  /-- Reused encode buffer. -/
  scratch : Bytes
  compressionThreshold : Option Int32
  /-- Reused compression buffer. -/
  compressed : Bytes
  threshold_nonneg : ∀ threshold, compressionThreshold = some threshold → 0 ≤ threshold.toInt
  deriving DecidableEq

namespace PacketCodec

/-- A codec in uncompressed mode. -/
def new : PacketCodec where
  scratch := []
  compressionThreshold := none
  compressed := []
  threshold_nonneg := by simp

/-- Enable or disable compression. A negative threshold disables it. -/
def setCompression (self : PacketCodec) (threshold : Int32) : PacketCodec where
  scratch := self.scratch
  compressionThreshold := if threshold.toInt < 0 then none else some threshold
  compressed := self.compressed
  threshold_nonneg := by
    intro threshold' h
    split_ifs at h with hneg
    obtain rfl := Option.some.inj h
    exact Int.not_lt.mp hneg

/-! ## Decoding -/

/-- Turn a compressed-mode frame body into a raw packet. -/
def decompress (z : Zlib) (t : Target) (frame : Bytes) (threshold : Int32) :
    Exec ProtocolError σ Bytes := do
  let (declared, frame) ← Exec.locally (readVarint t) frame
  match Target.tryFromInt32 declared with
  | none => Exec.throw (.negativeLength declared)
  | some dataLength =>
    -- zero marks a raw packet
    if dataLength = 0 then pure frame
    else if dataLength > maxPacketSize then Exec.throw (.frameTooLarge dataLength maxPacketSize)
    else if dataLength < t.ofInt32 threshold then
      Exec.throw (.compressedBelowThreshold dataLength threshold)
    else
      -- one byte more than declared, so that a longer payload is noticed
      match (z.inflate frame).readToEnd (dataLength + 1) with
      | .error reason => Exec.throw (.decompression reason)
      | .ok out =>
        if out.length ≠ dataLength then Exec.throw (.compressedSizeMismatch dataLength out.length)
        else pure out

/-- The `match self.compression_threshold` of `decode`: the packet a frame holds. -/
def openFrame (z : Zlib) (t : Target) (self : PacketCodec) (frame : Bytes) : Exec ProtocolError σ Bytes :=
  match self.compressionThreshold with
  | none => pure frame
  | some threshold => decompress z t frame threshold

/-- The part of `decode` after the frame has been split off and its length prefix skipped. -/
def decodeFrame (z : Zlib) (t : Target) (self : PacketCodec) (frame : Bytes) :
    Exec ProtocolError σ RawPacket := do
  let body ← openFrame z t self frame
  let (id, body) ← Exec.locally (readVarint t) body
  pure { id, body }

/-- Decode one frame from the front of the buffer, if it holds a whole one. -/
def decode (z : Zlib) (t : Target) (self : PacketCodec) : Exec ProtocolError Bytes (Option RawPacket) := do
  let src ← Exec.state
  match ← readVarintSlice t src with
  | none => pure none
  | some (declared, prefixLen) =>
    match Target.tryFromInt32 declared with
    | none => Exec.throw (.negativeLength declared)
    | some bodyLen =>
      if bodyLen > maxPacketSize then Exec.throw (.frameTooLarge bodyLen maxPacketSize)
      else do
        let frameLen ← Exec.usize t (prefixLen + bodyLen)
        if src.length < frameLen then pure none
        else do
          let frame ← Exec.take frameLen
          -- `frame.advance(prefix_len)`
          let (_, frame) ← Exec.locally (Exec.take prefixLen) frame
          let packet ← decodeFrame z t self frame
          pure (some packet)

/-! ## Encoding -/

/-- Encode one packet at the end of `dst`. The state of the outcome is the codec and the buffer after
    the call. -/
def encode [Packet P] (z : Zlib) (t : Target) (self : PacketCodec) (item : P) (dst : Bytes) :
    Outcome ProtocolError (PacketCodec × Bytes) Unit :=
  -- the scratch buffer is cleared, then the ID and the body are written to it
  let packet : Put ProtocolError Unit := do
    writeVarint (Packet.id P)
    Packet.encode item
  let self := { self with scratch := packet.bytes }
  match packet.result with
  | .error e => .error e (self, dst)
  | .ok () =>
    let len := self.scratch.length
    if len > maxPacketSize then .error (.frameTooLarge len maxPacketSize) (self, dst)
    else match self.compressionThreshold with
      | none =>
        let out : Put ProtocolError Unit := do
          writeVarint (Int32.ofNat len)
          Put.slice self.scratch
        .ok () (self, dst ++ out.bytes)
      | some threshold =>
        if len < t.ofInt32 threshold then
          let payloadLen := 1 + len
          let out : Put ProtocolError Unit := do
            writeVarint (Int32.ofNat payloadLen)
            writeVarint 0
            Put.slice self.scratch
          .ok () (self, dst ++ out.bytes)
        else
          -- cleared, and moved into the encoder: a failing encoder leaves it empty
          let self := { self with compressed := [] }
          match z.deflate self.scratch with
          | .error reason => .error (.io reason) (self, dst)
          | .ok deflated =>
            let self := { self with compressed := self.compressed ++ deflated }
            let payloadLen := varintLen (Int32.ofNat len) + self.compressed.length
            let out : Put ProtocolError Unit := do
              writeVarint (Int32.ofNat payloadLen)
              writeVarint (Int32.ofNat len)
              Put.slice self.compressed
            .ok () (self, dst ++ out.bytes)

end PacketCodec

end Pyrite.Protocol
