import Pyrite.Protocol.Framed
import Pyrite.Protocol.Stream
import Pyrite.Wire.Meter

set_option autoImplicit false

/-! # Speculative reserves

While a frame is incomplete, `PacketCodec::decode` asks its read buffer to grow towards what the length prefix has
declared. The declared length is a claim of the peer, so it asks for a bounded step at a time. What it asks for
cannot be seen from what it returns: the copy of it below notes each request, and is otherwise the codec
(`erases_decode`). The vector that `decompress` inflates a frame into is not part of that buffer, and is not
noted. -/

namespace Pyrite.Protocol

open Wire

/-- `MAX_SPECULATIVE_RESERVE` -/
def maxSpeculativeReserve : Nat := 8 * 1024

/-- A `reserve` on a buffer of `held` bytes. -/
structure Reservation where
  held : Nat
  additional : Nat
  deriving DecidableEq, Repr

/-- How many bytes a buffer must have room for. -/
def Reservation.capacity (r : Reservation) : Nat := r.held + r.additional

/-- `src.reserve` -/
def reserve (additional : Nat) : Exec ProtocolError (Bytes × List Reservation) Unit :=
  Exec.modify fun p => (p.1, p.2 ++ [⟨p.1.length, additional⟩])

/-- `decode` with a note of each `src.reserve`. -/
def PacketCodec.reservingDecode (z : Zlib) (t : Target) (self : PacketCodec) :
    Exec ProtocolError (Bytes × List Reservation) (Option RawPacket) := do
  let src ← Exec.beside Exec.state
  match ← Exec.beside (readVarintSlice t src) with
  | none => pure none
  | some (declared, prefixLen) =>
    match Target.tryFromInt32 declared with
    | none => Exec.throw (.negativeLength declared)
    | some bodyLen =>
      if bodyLen > maxPacketSize then Exec.throw (.frameTooLarge bodyLen maxPacketSize)
      else do
        let frameLen ← Exec.beside (Exec.usize t (prefixLen + bodyLen))
        if src.length < frameLen then do
          reserve (min (frameLen - src.length) maxSpeculativeReserve)
          pure none
        else do
          let frame ← Exec.beside (Exec.take frameLen)
          let (_, frame) ← Exec.beside (Exec.locally (Exec.take prefixLen) frame)
          let packet ← Exec.beside (decodeFrame z t self frame)
          pure (some packet)

/-- **The copy is the codec.** -/
theorem erases_decode (z : Zlib) (t : Target) (self : PacketCodec) :
    Exec.Erases (self.reservingDecode z t) (self.decode z t) := by
  unfold PacketCodec.reservingDecode PacketCodec.decode
  refine (Exec.erases_beside _).bind fun src => (Exec.erases_beside _).bind fun r => ?_
  cases r with
  | none => exact Exec.erases_pure none
  | some length =>
      obtain ⟨declared, prefixLen⟩ := length
      dsimp only
      cases Target.tryFromInt32 declared with
      | none => exact Exec.erases_throw _
      | some bodyLen =>
          refine (Exec.erases_throw _).ite ((Exec.erases_beside _).bind fun frameLen => ?_)
          refine Exec.Erases.ite (fun _ _ => rfl) ?_
          refine (Exec.erases_beside _).bind fun frame => (Exec.erases_beside _).bind fun parts => ?_
          exact (Exec.erases_beside _).bind fun packet => Exec.erases_pure (some packet)

/-! ## What is asked for -/

/-- A request of one step at most, towards a frame that has begun to arrive. -/
structure Reservation.Stepwise (r : Reservation) (src : Bytes) : Prop where
  held : r.held = src.length
  begun : 0 < r.held
  positive : 0 < r.additional
  step : r.additional ≤ maxSpeculativeReserve
  within : r.capacity ≤ maxVarintLen + maxPacketSize

theorem stepwise_reserve {src : Bytes} {n len : Nat} (hscan : scan maxVarintLen src = .complete n)
    (hmax : len ≤ maxPacketSize) (hshort : src.length < n + len) :
    Reservation.Stepwise ⟨src.length, min (n + len - src.length) maxSpeculativeReserve⟩ src := by
  obtain ⟨hpositive, hn, hle⟩ := scan_complete hscan
  have hstep : 0 < maxSpeculativeReserve := by decide
  refine ⟨rfl, lt_of_lt_of_le hpositive hle, lt_min (by omega) hstep, min_le_right _ _, ?_⟩
  have hmin := min_le_left (n + len - src.length) maxSpeculativeReserve
  simp only [Reservation.capacity]
  omega

/-- A call asks its buffer to grow once at most, and only if it has to wait for the rest of a frame. -/
theorem reservingDecode_spec (z : Zlib) (t : Target) (self : PacketCodec) (src : Bytes)
    (log : List Reservation) :
    (self.reservingDecode z t (src, log)).Satisfies
      (fun packet p => p.2 = log ∨ (packet = none ∧ ∃ r : Reservation, r.Stepwise src ∧ p.2 = log ++ [r]))
      (fun _ p => p.2 = log) := by
  refine Outcome.Respects.satisfies ?_
    (Outcome.ends_of_forget (decode_total z t self src) (erases_decode z t self src log))
  have hstate : (Exec.beside Exec.state (src, log) : Outcome ProtocolError _ Bytes).Respects
      (fun held p => held = src ∧ p = (src, log)) (fun _ p => p.2 = log) := ⟨rfl, rfl⟩
  unfold PacketCodec.reservingDecode
  refine hstate.bind ?_
  rintro held _ ⟨rfl, rfl⟩
  have hprefix : (Exec.beside (readVarintSlice t held) (held, log)).Respects
      (fun length p => p = (held, log) ∧ ∀ declared n, length = some (declared, n) →
        scan maxVarintLen held = .complete n)
      (fun _ p => p.2 = log) := by
    refine Exec.beside_respects ?_
    rw [readVarintSlice_eq]
    cases hscan : scan maxVarintLen held with
    | short => exact ⟨rfl, by simp⟩
    | tooLong => rfl
    | complete n =>
        refine ⟨rfl, fun declared n' heq => ?_⟩
        obtain ⟨-, rfl⟩ := Prod.mk.inj (Option.some.inj heq)
        rfl
  refine hprefix.bind ?_
  rintro length _ ⟨rfl, hscan⟩
  cases length with
  | none => exact Or.inl rfl
  | some length =>
      obtain ⟨declared, n⟩ := length
      dsimp only
      cases Target.tryFromInt32 declared with
      | none => rfl
      | some len =>
          dsimp only
          by_cases hmax : len > maxPacketSize
          · rw [if_pos hmax]
            rfl
          rw [if_neg hmax]
          have hframe : (Exec.beside (Exec.usize t (n + len)) (held, log)).Respects
              (fun frameLen p => frameLen = n + len ∧ p = (held, log))
              (fun (_ : ProtocolError) p => p.2 = log) := by
            refine Exec.beside_respects ?_
            unfold Exec.usize
            split
            · exact ⟨rfl, rfl⟩
            · trivial
          refine hframe.bind ?_
          rintro _ _ ⟨rfl, rfl⟩
          by_cases hshort : held.length < n + len
          · rw [if_pos hshort]
            exact Or.inr ⟨rfl, _, stepwise_reserve (hscan declared n rfl) (Nat.not_lt.mp hmax) hshort, rfl⟩
          · rw [if_neg hshort]
            -- a whole frame is there, and from here on nothing is asked for
            refine (Exec.beside_same _ (held, log)).bind fun frame p hp => ?_
            refine ((Exec.beside_same _ p).mono (fun _ _ h => h.trans hp) fun _ _ h => h.trans hp).bind ?_
            intro parts p hp
            refine ((Exec.beside_same _ p).mono (fun _ _ h => h.trans hp) fun _ _ h => h.trans hp).bind ?_
            intro packet p hp
            exact Or.inl hp

end Pyrite.Protocol
