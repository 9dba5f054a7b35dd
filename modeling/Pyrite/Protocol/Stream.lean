import Pyrite.Nbt.Canonical
import Pyrite.Protocol.Framing

set_option autoImplicit false

/-! # Streams of frames

What holds of the codec over a whole connection, for bytes from anywhere:

* no decoder of the two crates panics or loops on any input (`decoders_total`);
* what a receiver gets does not depend on how the transport cuts the stream
  (`decode_fragmentation`);
* a receiver that switches compression where the sender did gets exactly the packets that were sent
  (`receive_sent`). -/

namespace Pyrite.Protocol

open Wire

variable {σ : Type}

/-! ## Hostile input -/

theorem decode_total (z : Zlib) (t : Target) (codec : PacketCodec) : (codec.decode z t).Total := by
  intro src
  rw [decode_eq]
  cases front src with
  | incomplete => trivial
  | rejected e => trivial
  | frame payload rest =>
      exact ((decodeFrame_stateless z t codec payload).bind fun packet =>
        Exec.stateless_pure (some packet)).total rest

theorem decodeAs_total (P : Type) [Packet P] [TotalPacket P] (t : Target) (packet : RawPacket) :
    (packet.decodeAs P t : Exec ProtocolError σ P).Total := by
  refine (Exec.stateless_locally (TotalPacket.decode_total t) packet.body).total.bind fun r => ?_
  exact Exec.Total.ite (Exec.total_throw _) (Exec.total_pure _)

/-- **Hostile input.** Whatever the bytes, the compression setting and the width of `usize`, decoding a
    frame, decoding its body as any of the packet types, and reading an NBT document end with a value or
    a typed error: no partial primitive is used outside its domain and no loop runs on. -/
theorem decoders_total (z : Zlib) (t : Target) :
    (∀ codec : PacketCodec, (codec.decode z t).Total) ∧
    (∀ packet : RawPacket,
      (packet.decodeAs Handshake t : Exec ProtocolError Unit _).Total ∧
      (packet.decodeAs StatusRequest t : Exec ProtocolError Unit _).Total ∧
      (packet.decodeAs StatusResponse t : Exec ProtocolError Unit _).Total ∧
      (packet.decodeAs PingRequest t : Exec ProtocolError Unit _).Total ∧
      (packet.decodeAs PongResponse t : Exec ProtocolError Unit _).Total ∧
      (packet.decodeAs LoginDisconnect t : Exec ProtocolError Unit _).Total ∧
      (packet.decodeAs LoginStart t : Exec ProtocolError Unit _).Total ∧
      (packet.decodeAs SetCompression t : Exec ProtocolError Unit _).Total ∧
      (packet.decodeAs LoginSuccess t : Exec ProtocolError Unit _).Total ∧
      (packet.decodeAs LoginAcknowledged t : Exec ProtocolError Unit _).Total) ∧
    (readVarint t).Total ∧ (readVarlong t).Total ∧
    (Nbt.readNetworkRoot t).Total ∧ (Nbt.readNamedRoot t).Total ∧
    (Nbt.readOptionalNetworkRoot t).Total := by
  refine ⟨decode_total z t, fun packet => ?_, readVarint_total t, readVarlong_total t, ?_, ?_, ?_⟩
  · exact ⟨decodeAs_total _ t packet, decodeAs_total _ t packet, decodeAs_total _ t packet,
      decodeAs_total _ t packet, decodeAs_total _ t packet, decodeAs_total _ t packet,
      decodeAs_total _ t packet, decodeAs_total _ t packet, decodeAs_total _ t packet,
      decodeAs_total _ t packet⟩
  · intro src
    exact (Nbt.readNetworkRoot_spec t src).ends
  · intro src
    exact (Nbt.readNamedRoot_spec t src).ends
  · intro src
    exact (Nbt.readOptionalNetworkRoot_spec t src).ends

/-! ## What a decode step removes -/

/-- The length prefix at the front is refused, whatever follows it. -/
def PrefixRejected (t : Target) (src : Bytes) : Prop :=
  (∃ e, readVarintSlice t src () = .error e ()) ∨
    ∃ declared n, readVarintSlice t src () = .ok (some (declared, n)) () ∧
      (declared.toInt < 0 ∨ maxPacketSize < declared.toInt.toNat)

/-- `rest` is `src` without the length prefix at its front and the bytes that the prefix declares. -/
def RemovesFrame (t : Target) (src rest : Bytes) : Prop :=
  ∃ declared n, readVarintSlice t src () = .ok (some (declared, n)) () ∧ 0 ≤ declared.toInt ∧
    n + declared.toInt.toNat ≤ src.length ∧ rest = src.drop (n + declared.toInt.toNat)

/-- What `front` says, in terms of the peeking reader. -/
theorem front_accounts (t : Target) (src : Bytes) :
    match front src with
    | .incomplete => ¬ PrefixRejected t src
    | .rejected _ => PrefixRejected t src
    | .frame _ rest => ¬ PrefixRejected t src ∧ RemovesFrame t src rest := by
  have hslice := readVarintSlice_eq t src ()
  unfold front
  cases hscan : scan maxVarintLen src with
  | short =>
      rw [hscan] at hslice
      simp [PrefixRejected, hslice]
  | tooLong =>
      rw [hscan] at hslice
      simp [PrefixRejected, hslice]
  | complete n =>
      rw [hscan] at hslice
      simp only at hslice
      have hrejected : PrefixRejected t src ↔ (varintValue (src.take n)).toInt < 0 ∨
          maxPacketSize < (varintValue (src.take n)).toInt.toNat := by
        rw [PrefixRejected, hslice]
        constructor
        · intro hparts
          rcases hparts with ⟨e, he⟩ | ⟨declared, m, heq, h⟩
          · cases he
          · cases heq
            exact h
        · intro h
          exact Or.inr ⟨_, n, rfl, h⟩
      simp only [frontFrame, Target.tryFromInt32]
      by_cases hneg : (varintValue (src.take n)).toInt < 0
      · simp only [if_pos hneg]
        exact hrejected.mpr (Or.inl hneg)
      simp only [if_neg hneg]
      by_cases hmax : maxPacketSize < (varintValue (src.take n)).toInt.toNat
      · rw [if_pos hmax]
        exact hrejected.mpr (Or.inr hmax)
      have hnot : ¬ PrefixRejected t src := fun h => (hrejected.mp h).elim hneg hmax
      rw [if_neg hmax]
      by_cases hshort : src.length < n + (varintValue (src.take n)).toInt.toNat
      · rw [if_pos hshort]
        exact hnot
      · rw [if_neg hshort]
        exact ⟨hnot, _, n, hslice, Int.not_lt.mp hneg, Nat.not_lt.mp hshort, rfl⟩

/-- Incomplete input and a refused prefix leave the buffer as it is; every other result removes exactly
    the frame. -/
theorem decode_accounts (z : Zlib) (t : Target) (codec : PacketCodec) (src : Bytes) :
    (codec.decode z t src).Satisfies
      (fun r rest => (r = none ∧ rest = src) ∨ (r ≠ none ∧ RemovesFrame t src rest))
      (fun _ rest => (PrefixRejected t src ∧ rest = src) ∨
        (¬ PrefixRejected t src ∧ RemovesFrame t src rest)) := by
  have hfront := front_accounts t src
  rw [decode_eq]
  cases hsrc : front src with
  | incomplete => exact Or.inl ⟨rfl, rfl⟩
  | rejected e =>
      rw [hsrc] at hfront
      exact Or.inl ⟨hfront, rfl⟩
  | frame payload rest =>
      rw [hsrc] at hfront
      obtain ⟨r, hr⟩ := decodeFrame_stateless (σ := Bytes) z t codec payload
      rw [decodeFront, hr]
      cases r with
      | ok packet => exact Or.inr ⟨by simp, hfront.2⟩
      | error e => exact Or.inr hfront

/-! ## Receiving in chunks

The receiving side of a connection: a codec, the packets it has decoded and the bytes it has not used.
A consumer may change the compression after each packet, depending on the packets so far. -/

structure Receiver where
  codec : PacketCodec
  packets : List RawPacket
  buffer : Bytes

namespace Receiver

/-- Nothing received yet. -/
def new (codec : PacketCodec) : Receiver := ⟨codec, [], []⟩

/-- Bytes arrive. -/
def append (s : Receiver) (chunk : Bytes) : Receiver := { s with buffer := s.buffer ++ chunk }

/-- A packet has been decoded, with `rest` left in the buffer. -/
def accept (consumer : List RawPacket → Option Int32) (s : Receiver) (packet : RawPacket) (rest : Bytes) :
    Receiver where
  codec := (consumer (s.packets ++ [packet])).elim s.codec s.codec.setCompression
  packets := s.packets ++ [packet]
  buffer := rest

end Receiver

/-- One call of `decode`: `.inr` when it returned `None`. -/
def pull (z : Zlib) (t : Target) (consumer : List RawPacket → Option Int32) :
    Exec ProtocolError Receiver (Unit ⊕ Unit) := fun s =>
  match s.codec.decode z t s.buffer with
  | .ok none rest => .ok (.inr ()) { s with buffer := rest }
  | .ok (some packet) rest => .ok (.inl ()) (s.accept consumer packet rest)
  | .error e rest => .error e { s with buffer := rest }
  | .panic => .panic
  | .diverge => .diverge

/-- Call `decode` until it returns `None` or fails. -/
def drain (z : Zlib) (t : Target) (consumer : List RawPacket → Option Int32) :
    Exec ProtocolError Receiver Unit :=
  Exec.loop (fun s => s.buffer.length) (fun _ => pull z t consumer) ()

/-- Append the chunks to the buffer one by one, draining it after each. -/
def receiveAll (z : Zlib) (t : Target) (consumer : List RawPacket → Option Int32) :
    List Bytes → Exec ProtocolError Receiver Unit
  | [] => pure ()
  | chunk :: chunks => do
    Exec.setState ((← Exec.state).append chunk)
    drain z t consumer
    receiveAll z t consumer chunks

/-- What the outside sees of a receiver: the packets, and the first error or the unused bytes. -/
def observe : Outcome ProtocolError Receiver Unit → Option (List RawPacket × (ProtocolError ⊕ Bytes))
  | .ok () s => some (s.packets, .inr s.buffer)
  | .error e s => some (s.packets, .inl e)
  | .panic => none
  | .diverge => none

section Drain

variable (z : Zlib) (t : Target) (consumer : List RawPacket → Option Int32)

@[simp] theorem buffer_append (s : Receiver) (chunk : Bytes) :
    (s.append chunk).buffer = s.buffer ++ chunk := rfl

@[simp] theorem codec_append (s : Receiver) (chunk : Bytes) : (s.append chunk).codec = s.codec := rfl

@[simp] theorem buffer_accept (s : Receiver) (packet : RawPacket) (rest : Bytes) :
    (s.accept consumer packet rest).buffer = rest := rfl

theorem accept_append (s : Receiver) (packet : RawPacket) (rest chunk : Bytes) :
    (s.append chunk).accept consumer packet (rest ++ chunk)
      = (s.accept consumer packet rest).append chunk := rfl

/-- One call of `decode`, by what the buffer starts with. -/
theorem pull_cases (s : Receiver) :
    (front s.buffer = .incomplete ∧ pull z t consumer s = .ok (.inr ()) s) ∨
    (∃ e rest, (∀ chunk, pull z t consumer (s.append chunk) = .error e { s with buffer := rest ++ chunk }) ∧
      pull z t consumer s = .error e { s with buffer := rest }) ∨
    (∃ packet rest, rest.length < s.buffer.length ∧
      (∀ chunk, pull z t consumer (s.append chunk)
        = .ok (.inl ()) ((s.accept consumer packet rest).append chunk)) ∧
      pull z t consumer s = .ok (.inl ()) (s.accept consumer packet rest)) := by
  cases hfront : front s.buffer with
  | incomplete =>
      refine Or.inl ⟨rfl, ?_⟩
      simp [pull, decode_eq, hfront, decodeFront]
  | rejected e =>
      refine Or.inr (Or.inl ⟨e, s.buffer, fun chunk => ?_, ?_⟩)
      · have hcomplete : front s.buffer ≠ .incomplete := by rw [hfront]; simp
        have happend := front_append hcomplete chunk
        rw [hfront] at happend
        simp only [pull, decode_eq, buffer_append, happend, Front.append, decodeFront]
        rfl
      · simp [pull, decode_eq, hfront, decodeFront]
  | frame payload rest =>
      have hcomplete : front s.buffer ≠ .incomplete := by rw [hfront]; simp
      have happend := front_append hcomplete
      simp only [hfront, Front.append] at happend
      obtain ⟨r, hr⟩ := decodeFrame_stateless (σ := Bytes) z t s.codec payload
      cases r with
      | error e =>
          refine Or.inr (Or.inl ⟨e, rest, fun chunk => ?_, ?_⟩)
          · simp [pull, decode_eq, happend, decodeFront, hr]
            rfl
          · simp [pull, decode_eq, hfront, decodeFront, hr]
      | ok packet =>
          refine Or.inr (Or.inr ⟨packet, rest, (front_frame_bounds hfront).1, fun chunk => ?_, ?_⟩)
          · simp [pull, decode_eq, happend, decodeFront, hr, accept_append]
          · simp [pull, decode_eq, hfront, decodeFront, hr]

theorem pull_decreases {s s' : Receiver} (h : pull z t consumer s = .ok (.inl ()) s') :
    s'.buffer.length < s.buffer.length := by
  rcases pull_cases z t consumer s with ⟨-, heq⟩ | ⟨e, rest, -, heq⟩ | ⟨packet, rest, hlt, -, heq⟩
  · rw [heq] at h
    cases h
  · rw [heq] at h
    cases h
  · rw [heq] at h
    cases h
    exact hlt

theorem drain_eq (s : Receiver) :
    drain z t consumer s
      = (pull z t consumer s).bind (Sum.elim (fun _ => drain z t consumer) pure) :=
  Exec.loop_eq _ (fun _ _ _ _ h => pull_decreases z t consumer h) () s

/-- Draining, and what happens to it when more bytes arrive: a drain that ended normally goes on from
    where it stopped, and one that failed has failed. -/
theorem drain_append (s : Receiver) :
    (∃ s', drain z t consumer s = .ok () s' ∧ front s'.buffer = .incomplete ∧
      ∀ chunk, drain z t consumer (s.append chunk) = drain z t consumer (s'.append chunk)) ∨
    ∃ e s', drain z t consumer s = .error e s' ∧
      ∀ chunk, drain z t consumer (s.append chunk) = .error e (s'.append chunk) := by
  -- by induction on the length of the buffer, which every decoded packet lowers
  induction hn : s.buffer.length using Nat.strongRecOn generalizing s with
  | ind n ih =>
      rcases pull_cases z t consumer s with
        ⟨hfront, heq⟩ | ⟨e, rest, hmore, heq⟩ | ⟨packet, rest, hlt, hmore, heq⟩
      · refine Or.inl ⟨s, ?_, hfront, fun _ => rfl⟩
        rw [drain_eq, heq]
        rfl
      · refine Or.inr ⟨e, { s with buffer := rest }, ?_, fun chunk => ?_⟩
        · rw [drain_eq, heq]
          rfl
        · rw [drain_eq, hmore]
          rfl
      · have hdrain : drain z t consumer s = drain z t consumer (s.accept consumer packet rest) := by
          rw [drain_eq, heq]
          rfl
        have hdrain' : ∀ chunk, drain z t consumer (s.append chunk)
            = drain z t consumer ((s.accept consumer packet rest).append chunk) := by
          intro chunk
          rw [drain_eq, hmore]
          rfl
        simp only [hdrain, hdrain']
        exact ih _ (hn ▸ hlt) _ rfl

/-- Between chunks the receiver is settled: nothing more to decode. -/
theorem drain_of_incomplete {s : Receiver} (h : front s.buffer = .incomplete) :
    drain z t consumer s = .ok () s := by
  rw [drain_eq]
  simp [pull, decode_eq, h, decodeFront]

theorem receiveAll_cons (chunk : Bytes) (chunks : List Bytes) (s : Receiver) :
    receiveAll z t consumer (chunk :: chunks) s
      = (drain z t consumer (s.append chunk)).bind fun _ => receiveAll z t consumer chunks := rfl

/-- From a settled receiver, chunks in sequence and the bytes they make up give the same. -/
theorem observe_receiveAll (chunks : List Bytes) {s : Receiver} (h : front s.buffer = .incomplete) :
    observe (receiveAll z t consumer chunks s)
      = observe (drain z t consumer (s.append chunks.flatten)) := by
  induction chunks generalizing s with
  | nil =>
      have hnil : s.append [].flatten = s := by simp [Receiver.append]
      rw [hnil, drain_of_incomplete z t consumer h]
      rfl
  | cons chunk chunks ih =>
      have happend : s.append (chunk :: chunks).flatten = (s.append chunk).append chunks.flatten := by
        simp [Receiver.append]
      rw [receiveAll_cons, happend]
      rcases drain_append z t consumer (s.append chunk) with ⟨s', heq, hfront, hmore⟩ | ⟨e, s', heq, hmore⟩
      · rw [heq, hmore]
        exact ih hfront
      · rw [heq, hmore]
        rfl

end Drain

/-- **Fragmentation.** However the stream is cut into chunks, and whatever the consumer does to the
    compression setting along the way, the packets and the first error or the unused bytes are those of
    the whole stream decoded at once. On the way, each call of `decode` removes exactly one frame or
    nothing. -/
theorem decode_fragmentation (z : Zlib) (t : Target) (consumer : List RawPacket → Option Int32)
    (codec : PacketCodec) (chunks : List Bytes) :
    observe (receiveAll z t consumer chunks (.new codec))
        = observe (receiveAll z t consumer [chunks.flatten] (.new codec)) ∧
      (observe (receiveAll z t consumer chunks (.new codec))).isSome ∧
      ∀ (codec : PacketCodec) (src : Bytes), (codec.decode z t src).Satisfies
        (fun r rest => (r = none ∧ rest = src) ∨ (r ≠ none ∧ RemovesFrame t src rest))
        (fun _ rest => (PrefixRejected t src ∧ rest = src) ∨
          (¬ PrefixRejected t src ∧ RemovesFrame t src rest)) := by
  have hsettled : front (Receiver.new codec).buffer = .incomplete := rfl
  refine ⟨?_, ?_, decode_accounts z t⟩
  · rw [observe_receiveAll z t consumer chunks hsettled,
      observe_receiveAll z t consumer [chunks.flatten] hsettled]
    simp
  · rw [observe_receiveAll z t consumer chunks hsettled]
    rcases drain_append z t consumer ((Receiver.new codec).append chunks.flatten) with
      ⟨s', heq, -, -⟩ | ⟨e, s', heq, -⟩
    · rw [heq]
      rfl
    · rw [heq]
      rfl

/-! ## Sending and receiving -/

/-- What a sender does with its codec. -/
inductive Op : Type 1 where
  | setCompression (threshold : Int32)
  | encode {P : Type} [Packet P] (item : P)

/-- `Sent z t codec dst ops packets out`: the operations succeed from `codec` and `dst`, encode
    `packets`, leave `out` in the buffer, and every frame declares a length within the limit. -/
inductive Sent (z : Zlib) (t : Target) :
    PacketCodec → Bytes → List Op → List RawPacket → Bytes → Prop where
  | nil {codec : PacketCodec} {dst : Bytes} : Sent z t codec dst [] [] dst
  | setCompression {codec : PacketCodec} {dst out : Bytes} {ops : List Op} {packets : List RawPacket}
      (threshold : Int32) (h : Sent z t (codec.setCompression threshold) dst ops packets out) :
      Sent z t codec dst (.setCompression threshold :: ops) packets out
  | encode {codec codec' : PacketCodec} {dst dst' out : Bytes} {ops : List Op}
      {packets : List RawPacket} {P : Type} [Packet P] {item : P}
      (hencode : codec.encode z t item dst = .ok () (codec', dst'))
      (hfits : FitsFrame z codec.compressionThreshold (packetBytes item))
      (h : Sent z t codec' dst' ops packets out) :
      Sent z t codec dst (.encode item :: ops)
        (⟨Packet.id P, (Packet.encode item).bytes⟩ :: packets) out

/-- The receiving side of the same operations: switch where the sender switched, decode where it
    encoded. -/
def receive (z : Zlib) (t : Target) :
    List Op → PacketCodec → Exec ProtocolError Bytes (List (Option RawPacket) × PacketCodec)
  | [], codec => pure ([], codec)
  | .setCompression threshold :: ops, codec => receive z t ops (codec.setCompression threshold)
  | @Op.encode _ _ _ :: ops, codec => do
    let packet ← codec.decode z t
    let (packets, codec) ← receive z t ops codec
    pure (packet :: packets, codec)

/-- By induction on what was sent. The invariant is that the two codecs agree on the threshold and that
    the receiver's buffer is what the sender has still to write, followed by `rest`. -/
theorem receive_of_sent {z : Zlib} (hz : z.Inverts) {t : Target} {sender : PacketCodec} {dst out : Bytes}
    {ops : List Op} {packets : List RawPacket} (h : Sent z t sender dst ops packets out) (rest : Bytes) :
    ∃ more, out = dst ++ more ∧
      ∀ receiver : PacketCodec, receiver.compressionThreshold = sender.compressionThreshold →
        ∃ receiver', receive z t ops receiver (more ++ rest) = .ok (packets.map some, receiver') rest := by
  induction h with
  | nil => exact ⟨[], (List.append_nil _).symm, fun receiver _ => ⟨receiver, rfl⟩⟩
  | setCompression threshold _ ih =>
      obtain ⟨more, hout, hreceive⟩ := ih
      exact ⟨more, hout, fun receiver _ => hreceive (receiver.setCompression threshold) rfl⟩
  | encode hencode hfits _ ih =>
      obtain ⟨more, rfl, hreceive⟩ := ih
      obtain ⟨-, hmax, hsame, p, hp, rfl⟩ := encode_ok hencode
      refine ⟨frameBytes p ++ more, List.append_assoc _ _ _, fun receiver hreceiver => ?_⟩
      obtain ⟨receiver', hrest⟩ := hreceive receiver (hreceiver.trans hsame.symm)
      have hdecode := decode_frameBytes hz t receiver hmax (hreceiver ▸ hp) ((fitsFrame_iff hp).mp hfits)
        (more ++ rest)
      refine ⟨receiver', ?_⟩
      rw [receive, List.append_assoc, Exec.bind_apply, hdecode, Outcome.bind_ok, Exec.bind_apply, hrest]
      rfl

/-- **Stream fidelity.** A receiver that starts in the sender's setting and switches compression where
    the sender did decodes exactly the packets that were sent, in order, and is then left with the
    incomplete frame behind them. -/
theorem receive_sent (z : Zlib) (hz : z.Inverts) (t : Target) (sender receiver : PacketCodec)
    (hsame : receiver.compressionThreshold = sender.compressionThreshold) (ops : List Op)
    (packets : List RawPacket) (out : Bytes) (hsent : Sent z t sender [] ops packets out)
    (rest : Bytes) (hrest : IncompleteFrame rest) :
    ∃ receiver', receive z t ops receiver (out ++ rest) = .ok (packets.map some, receiver') rest ∧
      receiver'.decode z t rest = .ok none rest := by
  obtain ⟨more, hout, hreceive⟩ := receive_of_sent hz hsent rest
  obtain rfl : out = more := hout
  obtain ⟨receiver', heq⟩ := hreceive receiver hsame
  refine ⟨receiver', heq, ?_⟩
  rw [decode_eq, hrest.front]
  rfl

/-- Two status requests, with compression switched on between them. -/
theorem receive_sent_statusRequests :
    ∃ receiver', receive zeroZlib .bits64
        [.encode ({} : StatusRequest), .setCompression 0, .encode ({} : StatusRequest)] .new
        ([1, 0, 10, 1, 120, 156, 99, 0, 0, 0, 1, 0, 1] ++ [5])
      = .ok ([some ⟨0, []⟩, some ⟨0, []⟩], receiver') [5] ∧
      receiver'.decode zeroZlib .bits64 [5] = .ok none [5] := by
  have hpacket : packetBytes ({} : StatusRequest) = [0] := by decide +kernel
  refine receive_sent zeroZlib zeroZlib_inverts .bits64 .new .new rfl _ [⟨0, []⟩, ⟨0, []⟩] _ ?_ [5] ?_
  · refine @Sent.encode _ _ _ ⟨[0], none, [], by simp⟩ _ [1, 0] _ _ _ _ _ _ (by decide +kernel) ?_ ?_
    · rw [hpacket]
      show 1 ≤ maxPacketSize
      decide
    refine .setCompression 0 (@Sent.encode _ _ _ ⟨[0], some 0, [120, 156, 99, 0, 0, 0, 1, 0, 1], by simp⟩
      _ _ _ _ _ _ _ _ (by decide +kernel) ?_ .nil)
    rw [hpacket]
    intro deflated hdeflate
    obtain rfl : [120, 156, 99, 0, 0, 0, 1, 0, 1] = deflated := Except.ok.inj hdeflate
    decide
  · exact Or.inr ⟨[0, 0, 0, 0, 0], by simp, [0, 0, 0, 0, 0], rfl⟩

end Pyrite.Protocol
