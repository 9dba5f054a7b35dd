import Pyrite.Protocol.Codec

set_option autoImplicit false

/-! # What a buffer starts with

`front` says what stands at the front of a buffer, for every codec alike: less than a frame, a length
prefix no codec accepts, or a frame. `PacketCodec.decode` is `front` followed by `decodeFrame` on the
frame found (`decode_eq`), and bytes that arrive later only extend what is left behind the front
(`front_append`). On the other side, `encode` appends a length prefix and a payload of exactly that
length (`encode_ok`), and the payload opens to the packet it was made from (`decodeFrame_payload`). -/

namespace Pyrite.Protocol

open Wire

variable {σ P : Type}

/-! ## The front of a buffer -/

inductive Front where
  /-- Less than a whole frame, so far. -/
  | incomplete
  /-- A length prefix that is refused. -/
  | rejected (error : ProtocolError)
  /-- A frame, without its length prefix, and what follows it. -/
  | frame (payload rest : Bytes)

/-- `Front` from a complete length prefix of `n` bytes on. -/
def frontFrame (src : Bytes) (n : Nat) (declared : Int32) : Front :=
  match Target.tryFromInt32 declared with
  | none => .rejected (.negativeLength declared)
  | some len =>
    if len > maxPacketSize then .rejected (.frameTooLarge len maxPacketSize)
    else if src.length < n + len then .incomplete
    else .frame ((src.drop n).take len) (src.drop (n + len))

def front (src : Bytes) : Front :=
  match scan maxVarintLen src with
  | .short => .incomplete
  | .tooLong => .rejected (.varIntTooLong maxVarintLen)
  | .complete n => frontFrame src n (varintValue (src.take n))

/-- The outcome of decoding, given what the buffer starts with. -/
def decodeFront (z : Zlib) (t : Target) (codec : PacketCodec) (src : Bytes) :
    Front → Outcome ProtocolError Bytes (Option RawPacket)
  | .incomplete => .ok none src
  | .rejected e => .error e src
  | .frame payload rest => (some <$> codec.decodeFrame z t payload) rest

theorem decode_eq (z : Zlib) (t : Target) (codec : PacketCodec) (src : Bytes) :
    codec.decode z t src = decodeFront z t codec src (front src) := by
  simp only [PacketCodec.decode, Exec.bind_apply, Exec.state_apply, Outcome.bind_ok,
    readVarintSlice_eq, front]
  cases hscan : scan maxVarintLen src with
  | short => rfl
  | tooLong => rfl
  | complete n =>
      simp only [Outcome.bind_ok, frontFrame]
      cases hlen : Target.tryFromInt32 (varintValue (src.take n)) with
      | none => rfl
      | some len =>
          simp only [Exec.ite_apply]
          by_cases hmax : len > maxPacketSize
          · rw [if_pos hmax, if_pos hmax]
            rfl
          have hn := (scan_complete hscan).2.1
          have hsum : n + len < 2 ^ 32 := by
            simp only [maxVarintLen, maxPacketSize] at hn hmax
            omega
          rw [if_neg hmax, if_neg hmax, Exec.bind_apply, Exec.usize_of_lt t hsum, Exec.pure_apply,
            Outcome.bind_ok, Exec.ite_apply]
          by_cases hshort : src.length < n + len
          · rw [if_pos hshort, if_pos hshort]
            rfl
          · have htake : (Exec.take (n + len) : Exec ProtocolError Bytes Bytes) src
                = .ok (src.take (n + len)) (src.drop (n + len)) := if_neg hshort
            have hlocal : (Exec.locally (Exec.take n) (src.take (n + len)) :
                Exec ProtocolError Bytes (Bytes × Bytes)) = pure (src.take n, (src.drop n).take len) := by
              funext s
              have hle : ¬ (src.take (n + len)).length < n := by
                rw [List.length_take]
                omega
              simp only [Exec.locally, Exec.take, if_neg hle, Exec.pure_apply, List.take_take,
                List.drop_take, Nat.min_eq_left (Nat.le_add_right n len), Nat.add_sub_cancel_left]
            rw [if_neg hshort, if_neg hshort, Exec.bind_apply, htake, Outcome.bind_ok, Exec.bind_apply,
              hlocal]
            rfl

theorem decode_of_front {z : Zlib} {t : Target} {codec : PacketCodec} {src payload rest : Bytes}
    (h : front src = .frame payload rest) :
    codec.decode z t src = (some <$> codec.decodeFrame z t payload) rest := by
  rw [decode_eq, h]
  rfl

/-- What a front becomes when more bytes arrive, unless it was waiting for them. -/
def Front.append : Front → Bytes → Front
  | .incomplete, _ => .incomplete
  | .rejected e, _ => .rejected e
  | .frame payload rest, more => .frame payload (rest ++ more)

theorem front_append {src : Bytes} (h : front src ≠ .incomplete) (more : Bytes) :
    front (src ++ more) = (front src).append more := by
  unfold front at h ⊢
  cases hscan : scan maxVarintLen src with
  | short => rw [hscan] at h; exact absurd rfl h
  | tooLong =>
      rw [scan_append (by rw [hscan]; simp), hscan]
      rfl
  | complete n =>
      have hn := (scan_complete hscan).2.2
      rw [hscan] at h
      rw [scan_append (by rw [hscan]; simp), hscan]
      simp only [List.take_append_of_le_length hn, frontFrame] at h ⊢
      cases hlen : Target.tryFromInt32 (varintValue (src.take n)) with
      | none => rfl
      | some len =>
          simp only [hlen] at h ⊢
          by_cases hmax : len > maxPacketSize
          · rw [if_pos hmax, if_pos hmax]
            rfl
          rw [if_neg hmax] at h
          rw [if_neg hmax, if_neg hmax]
          by_cases hshort : src.length < n + len
          · rw [if_pos hshort] at h
            exact absurd rfl h
          have hle : n + len ≤ src.length := Nat.not_lt.mp hshort
          have hle' : ¬ (src ++ more).length < n + len := by
            rw [List.length_append]
            omega
          rw [if_neg hshort, if_neg hle', List.drop_append_of_le_length hle,
            List.drop_append_of_le_length hn, List.take_append_of_le_length (by rw [List.length_drop]; omega)]
          rfl

/-- A frame takes at least one byte of the buffer, its length prefix, and is within the size limit. -/
theorem front_frame_bounds {src payload rest : Bytes} (h : front src = .frame payload rest) :
    rest.length < src.length ∧ payload.length ≤ maxPacketSize := by
  unfold front at h
  cases hscan : scan maxVarintLen src with
  | short => simp [hscan] at h
  | tooLong => simp [hscan] at h
  | complete n =>
      obtain ⟨hpos, -, hn⟩ := scan_complete hscan
      simp only [hscan, frontFrame] at h
      cases hlen : Target.tryFromInt32 (varintValue (src.take n)) with
      | none => simp [hlen] at h
      | some len =>
          simp only [hlen] at h
          split_ifs at h with hmax hshort
          obtain ⟨rfl, rfl⟩ := Front.frame.inj h
          rw [List.length_drop, List.length_take]
          exact ⟨by omega, by omega⟩

/-! ## Frames -/

/-- A payload behind its length. -/
def frameBytes (payload : Bytes) : Bytes := varintBytes (Int32.ofNat payload.length) ++ payload

theorem front_frameBytes {payload : Bytes} (h : payload.length ≤ maxPacketSize) (rest : Bytes) :
    front (frameBytes payload ++ rest) = .frame payload rest := by
  have hlen := Target.tryFromInt32_ofNat (n := payload.length) (by simp only [maxPacketSize] at h; omega)
  unfold front frameBytes
  rw [List.append_assoc, scan_varintBytes]
  simp only [List.take_left, varintValue_varintBytes, frontFrame, hlen]
  generalize varintBytes (Int32.ofNat payload.length) = bs
  have hshort : ¬ (bs ++ (payload ++ rest)).length < bs.length + payload.length := by
    simp only [List.length_append]
    omega
  rw [if_neg (Nat.not_lt.mpr h), if_neg hshort, List.drop_left, List.take_left, ← List.append_assoc,
    List.drop_left' (by simp)]

theorem front_of_tooLarge {p : Bytes} (hmax : maxPacketSize < p.length) (hlen : p.length < 2147483648) :
    front (frameBytes p) = .rejected (.frameTooLarge p.length maxPacketSize) := by
  unfold front frameBytes
  rw [scan_varintBytes]
  simp only [List.take_left, varintValue_varintBytes, frontFrame, Target.tryFromInt32_ofNat hlen]
  rw [if_pos hmax]

/-- A whole frame and nothing else. -/
def IsFrame (src : Bytes) : Prop := ∃ payload, front src = .frame payload []

/-- A length prefix that is not finished yet. -/
def PartialPrefix (src : Bytes) : Prop :=
  src.length < maxVarintLen ∧ ∀ b ∈ src, b &&& continuationBit ≠ 0

/-- Part of a length prefix, or bytes that some more bytes complete to a frame. -/
def IncompleteFrame (src : Bytes) : Prop :=
  PartialPrefix src ∨ ∃ more, more ≠ [] ∧ IsFrame (src ++ more)

theorem PartialPrefix.front {src : Bytes} (h : PartialPrefix src) : front src = .incomplete := by
  have hscan : scan maxVarintLen src = .short := by
    apply scan_short h.1
    intro b hb
    exact Nat.not_lt.mp fun hlt => h.2 b hb ((and_continuationBit b).mpr hlt)
  rw [Protocol.front, hscan]

theorem IncompleteFrame.front {src : Bytes} (h : IncompleteFrame src) : front src = .incomplete := by
  rcases h with hprefix | ⟨more, hmore, payload, hframe⟩
  · exact hprefix.front
  by_contra hfront
  rw [front_append hfront] at hframe
  cases hsrc : Protocol.front src with
  | incomplete => exact hfront hsrc
  | rejected e => simp [hsrc, Front.append] at hframe
  | frame payload' rest =>
      simp only [hsrc, Front.append, Front.frame.injEq, List.append_eq_nil_iff] at hframe
      exact hmore hframe.2.2

/-! ## Opening a frame -/

theorem decompress_stateless (z : Zlib) (t : Target) (frame : Bytes) (threshold : Int32) :
    (PacketCodec.decompress z t frame threshold : Exec ProtocolError σ Bytes).Stateless := by
  refine (Exec.stateless_locally (readVarint_total t) frame).bind fun r => ?_
  obtain ⟨declared, frame⟩ := r
  dsimp only
  cases Target.tryFromInt32 declared with
  | none => exact Exec.stateless_throw _
  | some dataLength =>
      dsimp only
      refine Exec.Stateless.ite (Exec.stateless_pure _) ?_
      refine Exec.Stateless.ite (Exec.stateless_throw _) ?_
      refine Exec.Stateless.ite (Exec.stateless_throw _) ?_
      cases (z.inflate frame).readToEnd (dataLength + 1) with
      | error reason => exact Exec.stateless_throw _
      | ok out => exact Exec.Stateless.ite (Exec.stateless_throw _) (Exec.stateless_pure _)

theorem decodeFrame_stateless (z : Zlib) (t : Target) (codec : PacketCodec) (frame : Bytes) :
    (codec.decodeFrame z t frame : Exec ProtocolError σ RawPacket).Stateless := by
  have hopen : (codec.openFrame z t frame : Exec ProtocolError σ Bytes).Stateless := by
    unfold PacketCodec.openFrame
    cases codec.compressionThreshold with
    | none => exact Exec.stateless_pure frame
    | some threshold => exact decompress_stateless z t frame threshold
  refine hopen.bind fun body => ?_
  exact (Exec.stateless_locally (readVarint_total t) body).bind fun _ => Exec.stateless_pure _

/-! ## Making a frame -/

/-- The payload of the frame for a packet, in each of the three layouts. -/
def payload (z : Zlib) (threshold : Option Int32) (packet : Bytes) : Except String Bytes :=
  match threshold with
  | none => .ok packet
  | some threshold =>
    if packet.length < threshold.toInt.toNat then .ok (varintBytes 0 ++ packet)
    else (z.deflate packet).map (varintBytes (Int32.ofNat packet.length) ++ ·)

/-- The two layouts of compressed mode. -/
theorem payload_some_ok {z : Zlib} {threshold : Int32} {packet p : Bytes}
    (h : payload z (some threshold) packet = .ok p) :
    (packet.length < threshold.toInt.toNat ∧ p = varintBytes 0 ++ packet) ∨
    (¬ packet.length < threshold.toInt.toNat ∧ ∃ deflated, z.deflate packet = .ok deflated ∧
      p = varintBytes (Int32.ofNat packet.length) ++ deflated) := by
  rw [payload] at h
  split_ifs at h with hbelow
  · exact Or.inl ⟨hbelow, (Except.ok.inj h).symm⟩
  · cases hdeflate : z.deflate packet with
    | error reason =>
        rw [hdeflate] at h
        cases h
    | ok deflated =>
        rw [hdeflate] at h
        exact Or.inr ⟨hbelow, deflated, rfl, (Except.ok.inj h).symm⟩

/-- What `encode` collects in its scratch buffer: the ID and the body. -/
def packetBytes [Packet P] (item : P) : Bytes :=
  varintBytes (Packet.id P) ++ (Packet.encode item).bytes

theorem writeVarint_bind_bytes (value : Int32) (out : Put ProtocolError Unit) :
    (do writeVarint value; out : Put ProtocolError Unit).bytes = varintBytes value ++ out.bytes := by
  rw [writeVarint_eq]
  rfl

/-- The scratch buffer after the ID and the body have been written, and how writing them ended. -/
theorem writePacket_eq [Packet P] (item : P) :
    (do writeVarint (Packet.id P); Packet.encode item : Put ProtocolError Unit)
      = ⟨packetBytes item, (Packet.encode item).result⟩ := by
  rw [writeVarint_eq]
  rfl

/-- **What `encode` appends** for a packet of an accepted size: one frame, whose length prefix is the
    length of its payload. The branches of the source compute that length in three ways. -/
theorem encode_eq [Packet P] {item : P} (hresult : (Packet.encode item).result = .ok ())
    (hmax : (packetBytes item).length ≤ maxPacketSize) (z : Zlib) (t : Target) (codec : PacketCodec)
    (dst : Bytes) :
    ∃ codec', codec'.compressionThreshold = codec.compressionThreshold ∧
      codec.encode z t item dst = match payload z codec.compressionThreshold (packetBytes item) with
        | .ok p => .ok () (codec', dst ++ frameBytes p)
        | .error reason => .error (.io reason) (codec', dst) := by
  obtain ⟨scratch, threshold, compressed, hnonneg⟩ := codec
  unfold PacketCodec.encode
  rw [writePacket_eq]
  simp only [hresult, if_neg (Nat.not_lt.mpr hmax)]
  cases threshold with
  | none =>
      simp only [writeVarint_bind_bytes, Put.slice, payload]
      exact ⟨_, rfl, rfl⟩
  | some threshold =>
      simp only [t.ofInt32_of_nonneg threshold (hnonneg threshold rfl), payload]
      by_cases hbelow : (packetBytes item).length < threshold.toInt.toNat
      · have hlen : 1 + (packetBytes item).length = (varintBytes 0 ++ packetBytes item).length := by
          rw [List.length_append, length_varintBytes]
          rfl
        simp only [if_pos hbelow, hlen, writeVarint_bind_bytes, Put.slice]
        exact ⟨_, rfl, rfl⟩
      · simp only [if_neg hbelow]
        cases hdeflate : z.deflate (packetBytes item) with
        | error reason => exact ⟨_, rfl, rfl⟩
        | ok deflated =>
            simp only [List.nil_append, ← length_varintBytes, ← List.length_append,
              writeVarint_bind_bytes, Put.slice]
            exact ⟨_, rfl, rfl⟩

/-- `encode` never changes the setting of the codec, and a failed one leaves the buffer alone. -/
theorem encode_spec [Packet P] (z : Zlib) (t : Target) (codec : PacketCodec) (item : P) (dst : Bytes) :
    (codec.encode z t item dst).Satisfies
      (fun _ s => s.1.compressionThreshold = codec.compressionThreshold)
      (fun _ s => s.1.compressionThreshold = codec.compressionThreshold ∧ s.2 = dst) := by
  cases hresult : (Packet.encode item).result with
  | error e => simp [PacketCodec.encode, writePacket_eq, hresult]
  | ok u =>
      by_cases hmax : maxPacketSize < (packetBytes item).length
      · simp [PacketCodec.encode, writePacket_eq, hresult, hmax]
      · obtain ⟨codec', hsame, heq⟩ := encode_eq hresult (Nat.not_lt.mp hmax) z t codec dst
        rw [heq]
        cases payload z codec.compressionThreshold (packetBytes item) with
        | ok p => exact hsame
        | error reason => exact ⟨hsame, rfl⟩

theorem encode_ok [Packet P] {z : Zlib} {t : Target} {codec codec' : PacketCodec} {item : P}
    {dst dst' : Bytes} (h : codec.encode z t item dst = .ok () (codec', dst')) :
    (Packet.encode item).result = .ok () ∧ (packetBytes item).length ≤ maxPacketSize ∧
      codec'.compressionThreshold = codec.compressionThreshold ∧
      ∃ p, payload z codec.compressionThreshold (packetBytes item) = .ok p ∧
        dst' = dst ++ frameBytes p := by
  have hresult : (Packet.encode item).result = .ok () := by
    cases hresult : (Packet.encode item).result with
    | ok u => rfl
    | error e => simp [PacketCodec.encode, writePacket_eq, hresult] at h
  have hmax : (packetBytes item).length ≤ maxPacketSize := by
    by_contra hmax
    simp [PacketCodec.encode, writePacket_eq, hresult, Nat.lt_of_not_le hmax] at h
  obtain ⟨codec'', hsame, heq⟩ := encode_eq hresult hmax z t codec dst
  rw [heq] at h
  cases hp : payload z codec.compressionThreshold (packetBytes item) with
  | error reason => simp [hp] at h
  | ok p =>
      simp only [hp, Outcome.ok.injEq, Prod.mk.injEq, true_and] at h
      obtain ⟨rfl, rfl⟩ := h
      exact ⟨hresult, hmax, hsame, p, rfl, rfl⟩

theorem locally_readVarint (t : Target) (value : Int32) (rest : Bytes) :
    (Exec.locally (readVarint t) (varintBytes value ++ rest) : Exec ProtocolError σ (Int32 × Bytes))
      = pure (value, rest) :=
  Exec.locally_of_ok (readVarint_append t value rest)

/-- A frame within the guards opens to what its compressed part inflates to. -/
theorem openFrame_of_inflate {z : Zlib} {t : Target} {codec : PacketCodec} {threshold n : Int32}
    {payload input out : Bytes} (hsetting : codec.compressionThreshold = some threshold)
    (hread : readVarint t payload = .ok n input) (hlen : (out.length : Int) = n.toInt)
    (hlower : max threshold.toInt 1 ≤ n.toInt) (hupper : n.toInt ≤ maxPacketSize)
    (hinflate : z.inflate input = ⟨out, .ok ()⟩) :
    (codec.openFrame z t payload : Exec ProtocolError σ Bytes) = pure out := by
  have hnonneg := codec.threshold_nonneg threshold hsetting
  have hdeclared : Target.tryFromInt32 n = some out.length := by
    rw [Target.tryFromInt32, if_neg (by omega)]
    exact congrArg some (by omega)
  have hzero : out.length ≠ 0 := by omega
  have hmax : ¬ out.length > maxPacketSize := by omega
  have hbelow : ¬ out.length < threshold.toInt.toNat := by omega
  unfold PacketCodec.openFrame
  rw [hsetting]
  funext s
  simp only [PacketCodec.decompress, Exec.bind_apply, Exec.locally_of_ok hread, Exec.pure_apply,
    Outcome.bind_ok, hdeclared, if_neg hzero, if_neg hmax, t.ofInt32_of_nonneg threshold hnonneg,
    if_neg hbelow, hinflate, Inflated.readToEnd_of_length_lt (Nat.lt_succ_self out.length), ne_eq,
    not_true_eq_false, if_false]

theorem openFrame_payload {z : Zlib} (hz : z.Inverts) (t : Target) (codec : PacketCodec)
    {packet p : Bytes} (hpos : 0 < packet.length) (hmax : packet.length ≤ maxPacketSize)
    (hp : payload z codec.compressionThreshold packet = .ok p) :
    (codec.openFrame z t p : Exec ProtocolError σ Bytes) = pure packet := by
  cases hthreshold : codec.compressionThreshold with
  | none =>
      rw [hthreshold] at hp
      obtain rfl : packet = p := by simpa [payload] using hp
      rw [PacketCodec.openFrame, hthreshold]
  | some threshold =>
      rw [hthreshold] at hp
      rcases payload_some_ok hp with ⟨-, rfl⟩ | ⟨hbelow, deflated, hdeflate, rfl⟩
      · have hzero : Target.tryFromInt32 0 = some 0 := rfl
        rw [PacketCodec.openFrame, hthreshold]
        funext s
        simp only [PacketCodec.decompress, Exec.bind_apply, locally_readVarint, Exec.pure_apply,
          Outcome.bind_ok, hzero, if_true]
      · have hbound : packet.length ≤ 2097151 := hmax
        have hlen : (Int32.ofNat packet.length).toInt = packet.length := int32_ofNat_toInt (by omega)
        exact openFrame_of_inflate hthreshold (readVarint_append t _ deflated) hlen.symm
          (by rw [hlen]; omega) (by rw [hlen]; exact Int.ofNat_le.mpr hmax) (hz packet deflated hdeflate)

/-- **A payload opens to the packet it was made from**, in a codec of the same setting. -/
theorem decodeFrame_payload {z : Zlib} (hz : z.Inverts) (t : Target) (codec : PacketCodec) {id : Int32}
    {body p : Bytes} (hmax : (varintBytes id ++ body).length ≤ maxPacketSize)
    (hp : payload z codec.compressionThreshold (varintBytes id ++ body) = .ok p) :
    (codec.decodeFrame z t p : Exec ProtocolError σ RawPacket) = pure ⟨id, body⟩ := by
  have hpos : 0 < (varintBytes id ++ body).length := by
    have hid := length_varintBytes_pos id
    rw [List.length_append]
    omega
  funext s
  simp only [PacketCodec.decodeFrame, openFrame_payload hz t codec hpos hmax hp, Exec.bind_apply,
    Exec.pure_apply, Outcome.bind_ok, locally_readVarint]

theorem decode_frameBytes {z : Zlib} (hz : z.Inverts) (t : Target) (codec : PacketCodec) {id : Int32}
    {body p : Bytes} (hmax : (varintBytes id ++ body).length ≤ maxPacketSize)
    (hp : payload z codec.compressionThreshold (varintBytes id ++ body) = .ok p)
    (hle : p.length ≤ maxPacketSize) (rest : Bytes) :
    codec.decode z t (frameBytes p ++ rest) = .ok (some ⟨id, body⟩) rest := by
  rw [decode_of_front (front_frameBytes hle rest), decodeFrame_payload hz t codec hmax hp]
  rfl

/-! ## Decoding what was encoded -/

/-- The frame for a packet stays within the size that a decoder accepts. In compressed mode the frame
    holds more than the packet: the data-length field, and whatever the compressor adds. -/
def FitsFrame (z : Zlib) (threshold : Option Int32) (packet : Bytes) : Prop :=
  match threshold with
  | none => packet.length ≤ maxPacketSize
  | some threshold =>
    if packet.length < threshold.toInt.toNat then 1 + packet.length ≤ maxPacketSize
    else ∀ deflated, z.deflate packet = .ok deflated →
      varintLen (Int32.ofNat packet.length) + deflated.length ≤ maxPacketSize

theorem fitsFrame_iff {z : Zlib} {threshold : Option Int32} {packet p : Bytes}
    (hp : payload z threshold packet = .ok p) :
    FitsFrame z threshold packet ↔ p.length ≤ maxPacketSize := by
  unfold FitsFrame
  cases threshold with
  | none =>
      obtain rfl := Except.ok.inj hp
      exact Iff.rfl
  | some threshold =>
      dsimp only
      rcases payload_some_ok hp with ⟨hbelow, rfl⟩ | ⟨hbelow, deflated, hdeflate, rfl⟩
      · rw [if_pos hbelow, List.length_append, length_varintBytes]
        exact Iff.rfl
      · rw [if_neg hbelow, List.length_append, length_varintBytes, hdeflate]
        exact ⟨fun h => h deflated rfl, fun h deflated' h' => Except.ok.inj h' ▸ h⟩

/-- Nothing but a payload of an accepted size is read back as one frame. -/
theorem length_le_of_front_frameBytes {p q : Bytes} (h : front (frameBytes p) = .frame q []) :
    p.length ≤ maxPacketSize := by
  unfold front frameBytes at h
  rw [scan_varintBytes] at h
  simp only [List.take_left, varintValue_varintBytes, frontFrame] at h
  cases hlen : Target.tryFromInt32 (Int32.ofNat p.length) with
  | none => simp [hlen] at h
  | some len =>
      simp only [hlen] at h
      split_ifs at h with hmax hshort
      obtain ⟨-, hrest⟩ := Front.frame.inj h
      have hle := List.drop_eq_nil_iff.mp hrest
      rw [List.length_append] at hle
      omega

/-- A codec reads a packet and nothing else from a buffer that is one frame. -/
theorem front_of_decode {z : Zlib} {t : Target} {codec : PacketCodec} {src rest : Bytes}
    {packet : RawPacket} (h : codec.decode z t src = .ok (some packet) rest) :
    ∃ q, front src = .frame q rest := by
  rw [decode_eq] at h
  cases hfront : front src with
  | incomplete => simp [hfront, decodeFront] at h
  | rejected e => simp [hfront, decodeFront] at h
  | frame q rest' =>
      obtain ⟨r, hr⟩ := decodeFrame_stateless (σ := Bytes) z t codec q
      rw [hfront, decodeFront, hr] at h
      cases r with
      | error e => simp at h
      | ok packet' =>
          have hrest : rest' = rest := by
            simp at h
            exact h.2
          exact ⟨q, by rw [hrest]⟩

/-- **Encoding, then decoding.** A codec in the same setting reads back exactly the packet that was
    encoded, and consumes the frame, if and only if the frame stays within the size limit: the encoder
    checks the limit before it adds the data-length field and compresses. -/
theorem decode_encode_iff [Packet P] (z : Zlib) (hz : z.Inverts) (t : Target)
    (codec receiver : PacketCodec) (hsame : receiver.compressionThreshold = codec.compressionThreshold)
    (item : P) (dst f : Bytes) (codec' : PacketCodec)
    (h : codec.encode z t item dst = .ok () (codec', dst ++ f)) :
    receiver.decode z t f = .ok (some ⟨Packet.id P, (Packet.encode item).bytes⟩) [] ↔
      FitsFrame z codec.compressionThreshold (packetBytes item) := by
  obtain ⟨-, hmax, -, p, hp, hf⟩ := encode_ok h
  obtain rfl := List.append_cancel_left hf
  rw [fitsFrame_iff hp]
  constructor
  · intro hdecode
    obtain ⟨q, hq⟩ := front_of_decode hdecode
    exact length_le_of_front_frameBytes hq
  · intro hle
    rw [← hsame] at hp
    have hdecode := decode_frameBytes hz t receiver hmax hp hle []
    rwa [List.append_nil] at hdecode

/-- zlib on one input, a lone zero byte. -/
def zeroZlib : Zlib where
  deflate input := if input = [0] then .ok [120, 156, 99, 0, 0, 0, 1, 0, 1] else .error "not a zero byte"
  inflate input :=
    if input = [120, 156, 99, 0, 0, 0, 1, 0, 1] then ⟨[0], .ok ()⟩ else ⟨[], .error "corrupt deflate stream"⟩

theorem zeroZlib_inverts : zeroZlib.Inverts := by
  intro input output h
  simp only [zeroZlib] at h ⊢
  split_ifs at h with hinput
  obtain rfl := Except.ok.inj h
  rw [if_pos rfl, hinput]

theorem decode_encode_statusRequest :
    (PacketCodec.new.setCompression 0).decode zeroZlib .bits32 [10, 1, 120, 156, 99, 0, 0, 0, 1, 0, 1]
      = .ok (some ⟨0, []⟩) [] := by
  have h := decode_encode_iff zeroZlib zeroZlib_inverts .bits32 (PacketCodec.new.setCompression 0)
    (PacketCodec.new.setCompression 0) rfl ({} : StatusRequest) []
    [10, 1, 120, 156, 99, 0, 0, 0, 1, 0, 1]
    { scratch := [0]
      compressionThreshold := some 0
      compressed := [120, 156, 99, 0, 0, 0, 1, 0, 1]
      threshold_nonneg := by simp } (by decide +kernel)
  have hpacket : packetBytes ({} : StatusRequest) = [0] := by decide +kernel
  apply h.mpr
  rw [hpacket]
  intro deflated hdeflate
  obtain rfl : [120, 156, 99, 0, 0, 0, 1, 0, 1] = deflated := Except.ok.inj hdeflate
  decide

/-- A disconnect packet with a reason of `n` letters. -/
def disconnectOf (n : Nat) : LoginDisconnect := ⟨String.ofList (List.replicate n 'a')⟩

theorem length_packetBytes_disconnectOf (n : Nat) :
    (packetBytes (disconnectOf n)).length = 1 + (varintLen (Int32.ofNat n) + n) := by
  have hreason : (utf8 (disconnectOf n).reason).length = n := length_utf8_replicate (by decide) n
  have hbytes : (Packet.encode (disconnectOf n)).bytes
      = varintBytes (Int32.ofNat n) ++ utf8 (disconnectOf n).reason := by
    show (writeString (disconnectOf n).reason : Put ProtocolError Unit).bytes = _
    rw [writeString_eq, hreason]
    rfl
  have hid : varintLen (Packet.id LoginDisconnect) = 1 := by decide
  rw [packetBytes, hbytes, List.length_append, List.length_append, length_varintBytes,
    length_varintBytes, hreason, hid]

/-- With a threshold above the size limit, a packet of the largest accepted size is encoded, and the
    frame is refused: its length counts the data-length field too. -/
theorem encode_exceeds_packet_size :
    ∃ codec' f, (PacketCodec.new.setCompression 2097152).encode zeroZlib .bits64 (disconnectOf 2097147) []
        = .ok () (codec', [] ++ f) ∧
      (PacketCodec.new.setCompression 2097152).decode zeroZlib .bits64 f
        = .error (.frameTooLarge 2097152 maxPacketSize) f := by
  have hlen : (packetBytes (disconnectOf 2097147)).length = 2097151 :=
    length_packetBytes_disconnectOf 2097147
  have hpayload : payload zeroZlib (PacketCodec.new.setCompression 2097152).compressionThreshold
      (packetBytes (disconnectOf 2097147)) = .ok (varintBytes 0 ++ packetBytes (disconnectOf 2097147)) := by
    have hthreshold : (PacketCodec.new.setCompression 2097152).compressionThreshold = some 2097152 := rfl
    have hnat : (2097152 : Int32).toInt.toNat = 2097152 := rfl
    rw [hthreshold, payload, hlen, hnat, if_pos (by norm_num)]
  have hresult : (Packet.encode (disconnectOf 2097147)).result = .ok () := by
    show (writeString (disconnectOf 2097147).reason : Put ProtocolError Unit).result = _
    rw [writeString_eq]
    rfl
  obtain ⟨codec', -, hencode⟩ := encode_eq hresult (by rw [hlen]; decide) zeroZlib .bits64
    (PacketCodec.new.setCompression 2097152) []
  rw [hpayload] at hencode
  refine ⟨codec', _, hencode, ?_⟩
  have hlen' : (varintBytes 0 ++ packetBytes (disconnectOf 2097147)).length = 2097152 := by
    rw [List.length_append, length_varintBytes, hlen]
    decide
  have hfront := front_of_tooLarge (p := varintBytes 0 ++ packetBytes (disconnectOf 2097147))
    (by rw [hlen']; decide) (by rw [hlen']; norm_num)
  rw [decode_eq, hfront, hlen']
  rfl

end Pyrite.Protocol
