import Pyrite.Protocol.Stream
import Pyrite.Wire.Reactor

set_option autoImplicit false

/-! # Servicing a stream of frames

The read side of `tokio_util::codec::Framed`, as far as both ends of a connection use it: the decoder is
called on what has arrived until it returns `None`, each packet goes to the owner of the stream, and the
owner either waits for the next one or is done. What the owner does with a packet is a parameter
(`Endpoint`), so the server and a client are two instances, and that the bytes may arrive in any pieces is
proved here for both. -/

namespace Pyrite.Protocol

open Wire

variable {σ ω : Type}

/-- The owner of a stream: waiting for a packet, or done with the stream. -/
inductive Framed (σ ω : Type) where
  | waiting (s : σ)
  | ended (result : ω)
  deriving DecidableEq, Repr

/-- What the owner of a stream does. -/
structure Endpoint (σ ω : Type) where
  /-- The codec that is in force. -/
  codec : σ → PacketCodec
  onPacket : σ → RawPacket → Framed σ ω
  onError : σ → ProtocolError → ω
  /-- The decoder has panicked. -/
  onPanic : ω

/-- One call of `decode`, and what the owner does with its result. `none` when it returned `None`. -/
def Endpoint.next (z : Zlib) (t : Target) (e : Endpoint σ ω) : Framed σ ω → Bytes → Option (Framed σ ω × Bytes)
  | .ended _, _ => none
  | .waiting s, buffer =>
    match (e.codec s).decode z t buffer with
    | .ok none _ => none
    | .ok (some packet) rest => some (e.onPacket s packet, rest)
    | .error error rest => some (.ended (e.onError s error), rest)
    | .panic => some (.ended e.onPanic, buffer)
    | .diverge => some (.ended e.onPanic, buffer)

/-- One call of `decode`, whatever arrives behind the buffer. -/
theorem decode_cases (z : Zlib) (t : Target) (codec : PacketCodec) (buffer : Bytes) :
    (front buffer = .incomplete ∧ codec.decode z t buffer = .ok none buffer) ∨
    (∃ error rest, rest.length ≤ buffer.length ∧
      ∀ more, codec.decode z t (buffer ++ more) = .error error (rest ++ more)) ∨
    (∃ packet rest, rest.length < buffer.length ∧
      ∀ more, codec.decode z t (buffer ++ more) = .ok (some packet) (rest ++ more)) := by
  cases hfront : front buffer with
  | incomplete =>
      rw [decode_eq, hfront]
      exact Or.inl ⟨rfl, rfl⟩
  | rejected error =>
      refine Or.inr (Or.inl ⟨error, buffer, le_rfl, fun more => ?_⟩)
      rw [decode_eq, front_append (by rw [hfront]; simp), hfront]
      rfl
  | frame payload rest =>
      have hbounds := front_frame_bounds hfront
      have hfront' : ∀ more, front (buffer ++ more) = .frame payload (rest ++ more) := by
        intro more
        rw [front_append (by rw [hfront]; simp), hfront]
        rfl
      obtain ⟨r, hr⟩ := decodeFrame_stateless (σ := Bytes) z t codec payload
      cases r with
      | error error =>
          refine Or.inr (Or.inl ⟨error, rest, hbounds.1.le, fun more => ?_⟩)
          rw [decode_of_front (hfront' more), hr]
          rfl
      | ok packet =>
          refine Or.inr (Or.inr ⟨packet, rest, hbounds.1, fun more => ?_⟩)
          rw [decode_of_front (hfront' more), hr]
          rfl

section Next

variable (z : Zlib) (t : Target) (e : Endpoint σ ω)

theorem Endpoint.next_ended (result : ω) (buffer : Bytes) : e.next z t (.ended result) buffer = none := rfl

/-- The decoder waits exactly while the frame at the front is not complete. -/
theorem Endpoint.next_eq_none {s : σ} {buffer : Bytes} :
    e.next z t (.waiting s) buffer = none ↔ front buffer = .incomplete := by
  rcases decode_cases z t (e.codec s) buffer with
    ⟨hfront, hdecode⟩ | ⟨error, rest, -, hdecode⟩ | ⟨packet, rest, -, hdecode⟩
  · simp [Endpoint.next, hdecode, hfront]
  · have hnone := hdecode []
    rw [List.append_nil, List.append_nil] at hnone
    refine iff_of_false (by simp [Endpoint.next, hnone]) fun hfront => ?_
    rw [decode_eq, hfront] at hnone
    cases hnone
  · have hnone := hdecode []
    rw [List.append_nil, List.append_nil] at hnone
    refine iff_of_false (by simp [Endpoint.next, hnone]) fun hfront => ?_
    rw [decode_eq, hfront] at hnone
    cases hnone

/-- A call that returned something: the owner was waiting, and got an error or a packet. -/
theorem Endpoint.next_eq_some {f f' : Framed σ ω} {buffer rest : Bytes}
    (h : e.next z t f buffer = some (f', rest)) : ∃ s, f = .waiting s ∧
      ((∃ error, (e.codec s).decode z t buffer = .error error rest ∧ f' = .ended (e.onError s error) ∧
          rest.length ≤ buffer.length) ∨
        ∃ packet, (e.codec s).decode z t buffer = .ok (some packet) rest ∧ f' = e.onPacket s packet ∧
          rest.length < buffer.length) ∧
      ∀ more, e.next z t f (buffer ++ more) = some (f', rest ++ more) := by
  cases f with
  | ended result => cases h
  | waiting s =>
      refine ⟨s, rfl, ?_⟩
      rcases decode_cases z t (e.codec s) buffer with
        ⟨-, hdecode⟩ | ⟨error, rest', hle, hdecode⟩ | ⟨packet, rest', hlt, hdecode⟩
      · simp [Endpoint.next, hdecode] at h
      · have hnow := hdecode []
        rw [List.append_nil, List.append_nil] at hnow
        simp only [Endpoint.next, hnow, Option.some.injEq, Prod.mk.injEq] at h
        obtain ⟨rfl, rfl⟩ := h
        exact ⟨Or.inl ⟨error, hnow, rfl, hle⟩, fun more => by simp only [Endpoint.next, hdecode]⟩
      · have hnow := hdecode []
        rw [List.append_nil, List.append_nil] at hnow
        simp only [Endpoint.next, hnow, Option.some.injEq, Prod.mk.injEq] at h
        obtain ⟨rfl, rfl⟩ := h
        exact ⟨Or.inr ⟨packet, hnow, rfl, hlt⟩, fun more => by simp only [Endpoint.next, hdecode]⟩

/-- The owner of a stream, as a reactor. -/
def Endpoint.reactor : Reactor (Framed σ ω) UInt8 where
  next := e.next z t
  rank
    | .waiting _ => 1
    | .ended _ => 0
  lowers := by
    intro f f' buffer rest h
    obtain ⟨s, rfl, ⟨error, -, rfl, hle⟩ | ⟨packet, -, rfl, hlt⟩, -⟩ := e.next_eq_some z t h
    · simp only
      omega
    · cases e.onPacket s packet with
      | waiting s' =>
          simp only
          omega
      | ended result =>
          simp only
          omega
  stable := by
    intro f f' buffer rest h
    obtain ⟨-, -, -, hmore⟩ := e.next_eq_some z t h
    exact hmore

variable {z t e}

/-- A packet is taken off the front. -/
theorem Endpoint.settle_packet {s : σ} {buffer rest : Bytes} {packet : RawPacket}
    (h : (e.codec s).decode z t buffer = .ok (some packet) rest) :
    (e.reactor z t).settle (.waiting s) buffer = (e.reactor z t).settle (e.onPacket s packet) rest := by
  have hnext : (e.reactor z t).next (.waiting s) buffer = some (e.onPacket s packet, rest) := by
    simp only [Endpoint.reactor, Endpoint.next, h]
  exact Reactor.settle_of_some hnext

theorem Endpoint.settle_ended (result : ω) (buffer : Bytes) :
    (e.reactor z t).settle (.ended result) buffer = (.ended result, buffer) :=
  Reactor.settle_of_none (e.next_ended z t result buffer)

theorem Endpoint.settle_nil (f : Framed σ ω) : (e.reactor z t).settle f [] = (f, []) := by
  cases f with
  | ended result => exact e.settle_ended result []
  | waiting s =>
      have hnext : e.next z t (.waiting s) [] = none := (e.next_eq_none z t).mpr rfl
      exact Reactor.settle_of_none hnext

end Next

/-! ## The bytes of a frame -/

theorem front_segment {src payload rest : Bytes} (h : front src = .frame payload rest) :
    ∃ segment, src = segment ++ rest ∧ front segment = .frame payload [] := by
  unfold front at h
  cases hscan : scan maxVarintLen src with
  | short => simp [hscan] at h
  | tooLong => simp [hscan] at h
  | complete n =>
      obtain ⟨-, -, hn⟩ := scan_complete hscan
      simp only [hscan, frontFrame] at h
      cases hlen : Target.tryFromInt32 (varintValue (src.take n)) with
      | none => simp [hlen] at h
      | some len =>
          simp only [hlen] at h
          split_ifs at h with hmax hshort
          obtain ⟨rfl, rfl⟩ := Front.frame.inj h
          refine ⟨src.take n ++ (src.drop n).take len, ?_, ?_⟩
          · rw [← List.take_add, List.take_append_drop]
          · have htake : (src.take n).length = n := List.length_take_of_le hn
            have hscan' : scan maxVarintLen (src.take n ++ (src.drop n).take len) = .complete n := by
              rw [scan_append (by rw [scan_take hscan]; simp), scan_take hscan]
            have hlength : (src.take n ++ (src.drop n).take len).length = n + len := by
              rw [List.length_append, htake, List.length_take, List.length_drop]
              omega
            simp only [front, hscan', frontFrame, List.take_left' htake, hlen]
            rw [if_neg hmax, if_neg (by omega), List.drop_left' htake, List.take_take, Nat.min_self,
              List.drop_of_length_le hlength.le]

/-- A packet comes from the bytes that are gone afterwards, and from no others. -/
theorem decode_segment {z : Zlib} {t : Target} {codec : PacketCodec} {src rest : Bytes} {packet : RawPacket}
    (h : codec.decode z t src = .ok (some packet) rest) :
    ∃ segment, src = segment ++ rest ∧ codec.decode z t segment = .ok (some packet) [] := by
  obtain ⟨payload, hfront⟩ := front_of_decode h
  obtain ⟨segment, hsrc, hsegment⟩ := front_segment hfront
  refine ⟨segment, hsrc, ?_⟩
  rw [decode_of_front hfront] at h
  rw [decode_of_front hsegment]
  obtain ⟨r, hr⟩ := decodeFrame_stateless (σ := Bytes) z t codec payload
  rw [hr] at h ⊢
  cases r with
  | error error => simp at h
  | ok packet' =>
      simp only [Exec.ofExcept_ok, Exec.map_apply, Exec.pure_apply, Outcome.bind_ok, Outcome.ok.injEq] at h ⊢
      exact ⟨h.1, trivial⟩

/-- Decoding only removes bytes from the front. -/
theorem decode_error_suffix {z : Zlib} {t : Target} {codec : PacketCodec} {src rest : Bytes} {e : ProtocolError}
    (h : codec.decode z t src = .error e rest) : ∃ segment, src = segment ++ rest := by
  have haccounts := decode_accounts z t codec src
  rw [h] at haccounts
  rcases haccounts with ⟨-, rfl⟩ | ⟨-, declared, n, -, -, -, rfl⟩
  · exact ⟨[], rfl⟩
  · exact ⟨_, (List.take_append_drop _ _).symm⟩

/-! ## How much can be unread -/

theorem length_lt_of_scan_short {max : Nat} {src : Bytes} (h : scan max src = .short) : src.length < max := by
  induction max generalizing src with
  | zero => simp [scan] at h
  | succ max ih =>
      cases src with
      | nil => exact Nat.succ_pos max
      | cons b bs =>
          rw [scan] at h
          split_ifs at h with hb
          have hshort : scan max bs = .short := by
            cases hscan : scan max bs with
            | short => rfl
            | tooLong => simp [hscan, Scan.succ] at h
            | complete n => simp [hscan, Scan.succ] at h
          exact Nat.succ_lt_succ (ih hshort)

/-- An incomplete frame is shorter than the longest length prefix and the longest frame behind it. -/
theorem length_lt_of_incomplete {buffer : Bytes} (h : front buffer = .incomplete) :
    buffer.length < maxVarintLen + maxPacketSize := by
  unfold front at h
  cases hscan : scan maxVarintLen buffer with
  | short => exact lt_of_lt_of_le (length_lt_of_scan_short hscan) (Nat.le_add_right _ _)
  | tooLong => simp [hscan] at h
  | complete n =>
      obtain ⟨-, hn, -⟩ := scan_complete hscan
      simp only [hscan, frontFrame] at h
      cases hlen : Target.tryFromInt32 (varintValue (buffer.take n)) with
      | none => simp [hlen] at h
      | some len =>
          simp only [hlen] at h
          split_ifs at h with hmax hshort
          omega

end Pyrite.Protocol
