import Pyrite.Protocol.Framing

set_option autoImplicit false

/-! # Reused buffers

`encode` works in two buffers that live as long as the codec: `scratch`, which a failed call leaves partly
written, and `compressed`, which is moved into the compressor and back. `encodeInPlace` is the method
statement by statement, over whatever the buffers hold from earlier calls. It is `PacketCodec.encode`
(`encodeInPlace_eq`), and what it appends is a function of the setting and the packet alone (`frameOf`). -/

namespace Pyrite.Protocol

open Wire

variable {P : Type}

/-! ## Statement by statement -/

namespace PacketCodec

/-- Write at the end of the scratch buffer. A writer that fails leaves there what it has written. -/
def toScratch (out : Put ProtocolError Unit) : Exec ProtocolError (PacketCodec × Bytes) Unit := fun s =>
  Exec.ofExcept out.result ({ s.1 with scratch := s.1.scratch ++ out.bytes }, s.2)

/-- Write at the end of the destination. -/
def toDst (out : Put ProtocolError Unit) : Exec ProtocolError (PacketCodec × Bytes) Unit := fun s =>
  Exec.ofExcept out.result (s.1, s.2 ++ out.bytes)

def setScratch (bytes : Bytes) : Exec ProtocolError (PacketCodec × Bytes) Unit :=
  Exec.modify fun s => ({ s.1 with scratch := bytes }, s.2)

def setCompressed (bytes : Bytes) : Exec ProtocolError (PacketCodec × Bytes) Unit :=
  Exec.modify fun s => ({ s.1 with compressed := bytes }, s.2)

/-- `std::mem::take(&mut self.compressed)` -/
def takeCompressed : Exec ProtocolError (PacketCodec × Bytes) Bytes := do
  let s ← Exec.state
  setCompressed []
  pure s.1.compressed

/-- `encode` as the source has it, one statement after the other. -/
def encodeInPlace [Packet P] (z : Zlib) (t : Target) (item : P) :
    Exec ProtocolError (PacketCodec × Bytes) Unit := do
  setScratch []
  toScratch (writeVarint (Packet.id P))
  toScratch (Packet.encode item)
  let s ← Exec.state
  let scratch := s.1.scratch
  let len := scratch.length
  if len > maxPacketSize then Exec.throw (.frameTooLarge len maxPacketSize)
  else match s.1.compressionThreshold with
    | none => do
      toDst (writeVarint (Int32.ofNat len))
      toDst (Put.slice scratch)
    | some threshold =>
      if len < t.ofInt32 threshold then do
        let payloadLen := 1 + len
        toDst (writeVarint (Int32.ofNat payloadLen))
        toDst (writeVarint 0)
        toDst (Put.slice scratch)
      else do
        setCompressed []
        -- the compressor appends to the vector it is given, and drops it when it fails
        let vec ← takeCompressed
        let deflated ← Exec.ofExcept ((z.deflate scratch).mapError ProtocolError.io)
        setCompressed (vec ++ deflated)
        let s ← Exec.state
        let compressed := s.1.compressed
        let payloadLen := varintLen (Int32.ofNat len) + compressed.length
        toDst (writeVarint (Int32.ofNat payloadLen))
        toDst (writeVarint (Int32.ofNat len))
        toDst (Put.slice compressed)

end PacketCodec

@[simp] theorem setScratch_apply (bytes : Bytes) (s : PacketCodec × Bytes) :
    PacketCodec.setScratch bytes s = .ok () ({ s.1 with scratch := bytes }, s.2) := rfl

@[simp] theorem toScratch_varint (value : Int32) (s : PacketCodec × Bytes) :
    PacketCodec.toScratch (writeVarint value) s =
      .ok () ({ s.1 with scratch := s.1.scratch ++ varintBytes value }, s.2) := by
  rw [writeVarint_eq]
  rfl

/-- The body goes behind the ID, into a buffer that has been cleared. -/
theorem toScratch_packet [Packet P] (item : P) (setting : Option Int32) (compressed dst : Bytes)
    (hnonneg : ∀ threshold, setting = some threshold → 0 ≤ threshold.toInt) :
    PacketCodec.toScratch (Packet.encode item)
        (⟨[] ++ varintBytes (Packet.id P), setting, compressed, hnonneg⟩, dst) =
      Exec.ofExcept (Packet.encode item).result (⟨packetBytes item, setting, compressed, hnonneg⟩, dst) := rfl

@[simp] theorem setCompressed_apply (bytes : Bytes) (s : PacketCodec × Bytes) :
    PacketCodec.setCompressed bytes s = .ok () ({ s.1 with compressed := bytes }, s.2) := rfl

@[simp] theorem takeCompressed_apply (s : PacketCodec × Bytes) :
    PacketCodec.takeCompressed s = .ok s.1.compressed ({ s.1 with compressed := [] }, s.2) := rfl

@[simp] theorem toDst_slice (bytes : Bytes) (s : PacketCodec × Bytes) :
    PacketCodec.toDst (Put.slice bytes) s = .ok () (s.1, s.2 ++ bytes) := rfl

@[simp] theorem toDst_varint (value : Int32) (s : PacketCodec × Bytes) :
    PacketCodec.toDst (writeVarint value) s = .ok () (s.1, s.2 ++ varintBytes value) := by
  rw [writeVarint_eq]
  rfl

theorem encodeInPlace_eq [Packet P] (z : Zlib) (t : Target) (codec : PacketCodec) (item : P) (dst : Bytes) :
    PacketCodec.encodeInPlace z t item (codec, dst) = codec.encode z t item dst := by
  obtain ⟨scratch, setting, compressed, hnonneg⟩ := codec
  unfold PacketCodec.encodeInPlace PacketCodec.encode
  simp only [writePacket_eq, Exec.bind_apply, setScratch_apply, toScratch_varint, Outcome.bind_ok,
    toScratch_packet]
  cases (Packet.encode item).result with
  | error e => rfl
  | ok u =>
      simp only [Exec.ofExcept_ok, Exec.pure_apply, Outcome.bind_ok, Exec.bind_apply, Exec.state_apply,
        Exec.ite_apply]
      by_cases hmax : (packetBytes item).length > maxPacketSize
      · rw [if_pos hmax, if_pos hmax]
        rfl
      rw [if_neg hmax, if_neg hmax]
      cases setting with
      | none =>
          simp only [Exec.bind_apply, toDst_varint, toDst_slice, Outcome.bind_ok, writeVarint_bind_bytes,
            Put.slice_bytes, List.append_assoc]
      | some threshold =>
          simp only [Exec.ite_apply]
          by_cases hbelow : (packetBytes item).length < t.ofInt32 threshold
          · rw [if_pos hbelow, if_pos hbelow]
            simp only [Exec.bind_apply, toDst_varint, toDst_slice, Outcome.bind_ok, writeVarint_bind_bytes,
              Put.slice_bytes, List.append_assoc]
          · rw [if_neg hbelow, if_neg hbelow]
            simp only [Exec.bind_apply, setCompressed_apply, takeCompressed_apply, Outcome.bind_ok]
            cases z.deflate (packetBytes item) with
            | error reason => rfl
            | ok deflated =>
                simp only [Except.mapError, Exec.ofExcept_ok, Exec.pure_apply, Exec.bind_apply,
                  setCompressed_apply, Exec.state_apply, toDst_varint, toDst_slice, Outcome.bind_ok,
                  writeVarint_bind_bytes, Put.slice_bytes, List.append_assoc]

/-! ## Every history -/

/-- The bytes that `encode` appends for a packet, or its error. -/
def frameOf [Packet P] (z : Zlib) (setting : Option Int32) (item : P) : Except ProtocolError Bytes := do
  (Packet.encode item).result
  if maxPacketSize < (packetBytes item).length then
    .error (.frameTooLarge (packetBytes item).length maxPacketSize)
  else ((payload z setting (packetBytes item)).mapError ProtocolError.io).map frameBytes

/-- What `encode` does to the destination is up to the setting and the packet, not to the buffers. -/
theorem encode_frameOf [Packet P] (z : Zlib) (t : Target) (codec : PacketCodec) (item : P) (dst : Bytes) :
    ∃ codec', codec'.compressionThreshold = codec.compressionThreshold ∧
      ((∃ f, frameOf z codec.compressionThreshold item = .ok f ∧
          codec.encode z t item dst = .ok () (codec', dst ++ f)) ∨
        ∃ e, frameOf z codec.compressionThreshold item = .error e ∧
          codec.encode z t item dst = .error e (codec', dst)) := by
  unfold frameOf
  cases hresult : (Packet.encode item).result with
  | error e =>
      refine ⟨{ codec with scratch := packetBytes item }, rfl, Or.inr ⟨e, rfl, ?_⟩⟩
      simp only [PacketCodec.encode, writePacket_eq, hresult]
  | ok u =>
      by_cases hmax : maxPacketSize < (packetBytes item).length
      · refine ⟨{ codec with scratch := packetBytes item }, rfl, Or.inr ⟨_, if_pos hmax, ?_⟩⟩
        simp only [PacketCodec.encode, writePacket_eq, hresult, if_pos hmax]
      · obtain ⟨codec', hsame, heq⟩ := encode_eq hresult (Nat.not_lt.mp hmax) z t codec dst
        refine ⟨codec', hsame, ?_⟩
        rw [heq]
        cases hpayload : payload z codec.compressionThreshold (packetBytes item) with
        | error reason => exact Or.inr ⟨.io reason, if_neg hmax, rfl⟩
        | ok p => exact Or.inl ⟨frameBytes p, if_neg hmax, rfl⟩

/-- One call of a method of the codec. -/
inductive Call : Type 1 where
  | encode {P : Type} [Packet P] (item : P) (dst : Bytes)
  | decode (src : Bytes)
  | setCompression (threshold : Int32)

/-- The codec after a call, successful or not. -/
def Call.apply (z : Zlib) (t : Target) (codec : PacketCodec) : Call → PacketCodec
  | @Call.encode _ _ item dst =>
    match PacketCodec.encodeInPlace z t item (codec, dst) with
    | .ok _ s => s.1
    | .error _ s => s.1
    | .panic => codec
    | .diverge => codec
  -- `decode` reads the setting and writes no field
  | .decode _ => codec
  | .setCompression threshold => codec.setCompression threshold

/-- A new codec with a given setting. -/
def PacketCodec.fresh : Option Int32 → PacketCodec
  | none => .new
  | some threshold => PacketCodec.new.setCompression threshold

theorem fresh_compressionThreshold (codec : PacketCodec) :
    (PacketCodec.fresh codec.compressionThreshold).compressionThreshold = codec.compressionThreshold := by
  cases hsetting : codec.compressionThreshold with
  | none => rfl
  | some threshold =>
      have hnonneg := codec.threshold_nonneg threshold hsetting
      exact if_neg (Int.not_lt.mpr hnonneg)

/-- **`encode` is atomic and independent of what happened before.** After any calls on a codec, a failing
    `encode` leaves the destination as it was, and a successful one appends what a new codec of the same
    setting appends to any destination. -/
theorem encode_atomic_and_history_independent (z : Zlib) (t : Target) (calls : List Call) (P : Type) [Packet P]
    (item : P) (dst : Bytes) :
    let codec := calls.foldl (Call.apply z t) PacketCodec.new
    let fresh := PacketCodec.fresh codec.compressionThreshold
    fresh.compressionThreshold = codec.compressionThreshold ∧
      ((∃ codec' e, PacketCodec.encodeInPlace z t item (codec, dst) = .error e (codec', dst) ∧
          ∀ dst', ∃ fresh', PacketCodec.encodeInPlace z t item (fresh, dst') = .error e (fresh', dst')) ∨
        ∃ codec' f, PacketCodec.encodeInPlace z t item (codec, dst) = .ok () (codec', dst ++ f) ∧
          ∀ dst', ∃ fresh', PacketCodec.encodeInPlace z t item (fresh, dst') =
            .ok () (fresh', dst' ++ f)) := by
  intro codec fresh
  have hsame : fresh.compressionThreshold = codec.compressionThreshold := fresh_compressionThreshold codec
  refine ⟨hsame, ?_⟩
  simp only [encodeInPlace_eq]
  obtain ⟨codec', -, h⟩ := encode_frameOf z t codec item dst
  rcases h with ⟨f, hframe, hencode⟩ | ⟨e, hframe, hencode⟩
  · refine Or.inr ⟨codec', f, hencode, fun dst' => ?_⟩
    obtain ⟨fresh', -, hfresh⟩ := encode_frameOf z t fresh item dst'
    rw [hsame, hframe] at hfresh
    exact ⟨fresh', by simpa using hfresh⟩
  · refine Or.inl ⟨codec', e, hencode, fun dst' => ?_⟩
    obtain ⟨fresh', -, hfresh⟩ := encode_frameOf z t fresh item dst'
    rw [hsame, hframe] at hfresh
    exact ⟨fresh', by simpa using hfresh⟩

end Pyrite.Protocol
