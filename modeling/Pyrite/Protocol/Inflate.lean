import Pyrite.Protocol.Framing
import Pyrite.Wire.Meter
import Pyrite.Wire.Reader

set_option autoImplicit false

/-! # Inflating

What `PacketCodec::decompress` asks of the inflater cannot be seen from what it returns. The logged copies
below run `take(data_length + 1).read_to_end` call by call on an inflater of any behaviour, and note each run
of it. On an inflater that gives what `Zlib.inflate` says they are the codec (`loggedDecode_forget`); what
the log says of them holds for every inflater (`decompression_bounded`).

The last part is about what the codec does not look at: the bytes of a frame behind the end of its zlib
stream. -/

namespace Pyrite.Protocol

open Wire

variable {σ ρ : Type}

/-- One run of the inflater. -/
structure Inflation where
  /-- The data length that the frame declares. -/
  declared : Nat
  input : Bytes
  /-- What was taken from the inflater. -/
  taken : Bytes
  /-- The inflater reported its end. -/
  ended : Bool

/-! ## The codec with a log -/

section Logged

variable (start : Bytes → ρ) (read : ρ → Nat → ReadStep ρ) (pace : Nat → Nat) (t : Target)

/-- `ZlibDecoder::new(frame).take(data_length + 1).read_to_end(&mut out)` -/
def loggedInflate (frame : Bytes) (dataLength : Nat) : Exec ProtocolError (σ × List Inflation) Bytes := do
  let r ← Exec.mapError ProtocolError.decompression
    (Exec.logged (fun s => ⟨dataLength, frame, s.out, s.ended⟩) (takeToEnd read pace)
      (.start (start frame) (dataLength + 1)))
  pure r.2.out

namespace PacketCodec

def loggedDecompress (frame : Bytes) (threshold : Int32) :
    Exec ProtocolError (σ × List Inflation) Bytes := do
  let (declared, frame) ← Exec.beside (Exec.locally (readVarint t) frame)
  match Target.tryFromInt32 declared with
  | none => Exec.throw (.negativeLength declared)
  | some dataLength =>
    if dataLength = 0 then pure frame
    else if dataLength > maxPacketSize then Exec.throw (.frameTooLarge dataLength maxPacketSize)
    else if dataLength < t.ofInt32 threshold then
      Exec.throw (.compressedBelowThreshold dataLength threshold)
    else do
      let out ← loggedInflate start read pace frame dataLength
      if out.length ≠ dataLength then Exec.throw (.compressedSizeMismatch dataLength out.length)
      else pure out

def loggedOpenFrame (self : PacketCodec) (frame : Bytes) : Exec ProtocolError (σ × List Inflation) Bytes :=
  match self.compressionThreshold with
  | none => pure frame
  | some threshold => loggedDecompress start read pace t frame threshold

def loggedDecodeFrame (self : PacketCodec) (frame : Bytes) :
    Exec ProtocolError (σ × List Inflation) RawPacket := do
  let body ← loggedOpenFrame start read pace t self frame
  let (id, body) ← Exec.beside (Exec.locally (readVarint t) body)
  pure { id, body }

/-- `decode` with the log of the runs of the inflater. Finding the frame runs none. -/
def loggedDecode (self : PacketCodec) (src : Bytes) :
    Outcome ProtocolError (Bytes × List Inflation) (Option RawPacket) :=
  match front src with
  | .incomplete => .ok none (src, [])
  | .rejected e => .error e (src, [])
  | .frame payload rest => (some <$> loggedDecodeFrame start read pace t self payload) (rest, [])

end PacketCodec

end Logged

/-! ## The log is one of the codec -/

section Erasure

variable {start : Bytes → ρ} {read : ρ → Nat → ReadStep ρ} {z : Zlib} {R : ρ → Inflated → Prop}

theorem erases_inflate (h : Realises read R) (hstart : ∀ input, R (start input) (z.inflate input))
    (pace : Nat → Nat) (frame : Bytes) (dataLength : Nat) :
    Exec.Erases (loggedInflate start read pace frame dataLength : Exec ProtocolError (σ × List Inflation) Bytes)
      (Exec.ofExcept (((z.inflate frame).readToEnd (dataLength + 1)).mapError ProtocolError.decompression)) := by
  have herases : Exec.Erases
      (loggedInflate start read pace frame dataLength : Exec ProtocolError (σ × List Inflation) Bytes)
      (Exec.mapError ProtocolError.decompression
        (Exec.locally (takeToEnd read pace) (.start (start frame) (dataLength + 1))) >>=
          fun r => pure r.2.out) :=
    ((Exec.erases_logged _ _ _).mapError _).bind fun _ => Exec.erases_pure _
  intro s log
  rw [herases s log, Exec.bind_apply]
  have heq := takeToEnd_eq h pace (hstart frame) (dataLength + 1)
  unfold Exec.mapError Exec.locally
  rcases heq.exists with ⟨_, s', htake⟩ | ⟨reason, s', htake⟩
  · rw [htake] at heq
    rw [htake, heq.of_ok rfl]
    rfl
  · rw [htake] at heq
    have hread : (z.inflate frame).readToEnd (dataLength + 1) = .error reason := heq
    rw [htake, hread]
    rfl

theorem erases_decompress (h : Realises read R) (hstart : ∀ input, R (start input) (z.inflate input))
    (pace : Nat → Nat) (t : Target) (frame : Bytes) (threshold : Int32) :
    Exec.Erases
      (PacketCodec.loggedDecompress start read pace t frame threshold :
        Exec ProtocolError (σ × List Inflation) Bytes)
      (PacketCodec.decompress z t frame threshold) := by
  refine (Exec.erases_beside _).bind fun r => ?_
  obtain ⟨declared, frame⟩ := r
  dsimp only
  cases Target.tryFromInt32 declared with
  | none => exact Exec.erases_throw _
  | some dataLength =>
      dsimp only
      refine Exec.Erases.ite (Exec.erases_pure _) (Exec.Erases.ite (Exec.erases_throw _) ?_)
      refine Exec.Erases.ite (Exec.erases_throw _) ?_
      have hbind := (erases_inflate (σ := σ) h hstart pace frame dataLength).bind fun out =>
        Exec.Erases.ite (c := out.length ≠ dataLength)
          (Exec.erases_throw (ProtocolError.compressedSizeMismatch dataLength out.length))
          (Exec.erases_pure out)
      cases hread : (z.inflate frame).readToEnd (dataLength + 1) with
      | error reason =>
          rw [hread] at hbind
          exact hbind
      | ok out =>
          rw [hread] at hbind
          exact hbind

/-- **The logged codec is the codec**, on an inflater that gives what `Zlib.inflate` says. -/
theorem loggedDecode_forget (h : Realises read R) (hstart : ∀ input, R (start input) (z.inflate input))
    (pace : Nat → Nat) (t : Target) (codec : PacketCodec) (src : Bytes) :
    (codec.loggedDecode start read pace t src).forget = codec.decode z t src := by
  rw [decode_eq, PacketCodec.loggedDecode]
  cases front src with
  | incomplete => rfl
  | rejected e => rfl
  | frame payload rest =>
      have hopen : Exec.Erases (codec.loggedOpenFrame start read pace t payload)
          (codec.openFrame z t payload : Exec ProtocolError Bytes Bytes) := by
        unfold PacketCodec.loggedOpenFrame PacketCodec.openFrame
        cases codec.compressionThreshold with
        | none => exact Exec.erases_pure payload
        | some threshold => exact erases_decompress h hstart pace t payload threshold
      have hframe : Exec.Erases (codec.loggedDecodeFrame start read pace t payload)
          (codec.decodeFrame z t payload : Exec ProtocolError Bytes RawPacket) :=
        hopen.bind fun body => (Exec.erases_beside _).bind fun r => Exec.erases_pure _
      exact (hframe.bind fun packet => Exec.erases_pure (some packet)) rest []

end Erasure

/-! ## What the log says -/

/-- The inflater was run within its guards, on what follows the data length of the frame. -/
structure Inflation.Guarded (entry : Inflation) (t : Target) (codec : PacketCodec) (payload : Bytes) :
    Prop where
  declared : readVarint t payload = .ok (Int32.ofNat entry.declared) entry.input
  lower : ∃ threshold, codec.compressionThreshold = some threshold ∧ max threshold.toInt 1 ≤ entry.declared
  upper : entry.declared ≤ maxPacketSize
  taken : entry.taken.length ≤ entry.declared + 1

/-- At most one run of the inflater, and within its guards. -/
def LogGuarded (t : Target) (codec : PacketCodec) (payload : Bytes) (log : List Inflation) : Prop :=
  log = [] ∨ ∃ entry : Inflation, log = [entry] ∧ entry.Guarded t codec payload

/-- How the bytes of a packet came out of a frame. -/
def Opened (t : Target) (codec : PacketCodec) (payload : Bytes) (log : List Inflation) (packet : Bytes) :
    Prop :=
  -- the frame is the packet
  (codec.compressionThreshold = none ∧ log = [] ∧ payload = packet) ∨
  -- a data length of zero
  (log = [] ∧ readVarint t payload = .ok 0 packet) ∨
  -- the whole output of the inflater, which is as long as declared
  ∃ entry : Inflation, log = [entry] ∧ entry.Guarded t codec payload ∧ entry.ended = true ∧
    entry.taken = packet ∧ packet.length = entry.declared

theorem locally_readVarint_spec {γ : Type} (t : Target) (src : Bytes) (p : σ × γ) :
    (Exec.beside (Exec.locally (readVarint t) src) p).Satisfies
      (fun r p' => p' = p ∧ readVarint t src = .ok r.1 r.2) (fun _ p' => p' = p) := by
  unfold Exec.beside Exec.zoom Exec.locally
  rcases (readVarint_total t src).exists with ⟨n, rest, hread⟩ | ⟨e, rest, hread⟩
  · rw [hread]
    exact ⟨rfl, rfl⟩
  · rw [hread]
    exact rfl

section Bounds

variable (start : Bytes → ρ) (read : ρ → Nat → ReadStep ρ) (pace : Nat → Nat) (t : Target)

theorem loggedInflate_spec (frame : Bytes) (dataLength : Nat) (p : σ × List Inflation) :
    (loggedInflate start read pace frame dataLength p).Satisfies
      (fun out p' => ∃ ended, p'.2 = p.2 ++ [⟨dataLength, frame, out, ended⟩] ∧
        out.length ≤ dataLength + 1 ∧ (out.length = dataLength → ended = true))
      (fun _ p' => ∃ taken ended, p'.2 = p.2 ++ [⟨dataLength, frame, taken, ended⟩] ∧
        taken.length ≤ dataLength + 1) := by
  have htake := takeToEnd_spec read pace (start frame) (dataLength + 1)
  have hlogged : (Exec.mapError ProtocolError.decompression
      (Exec.logged (fun s => ⟨dataLength, frame, s.out, s.ended⟩) (takeToEnd read pace)
        (.start (start frame) (dataLength + 1))) p).Satisfies
      (fun r p' => p'.2 = p.2 ++ [⟨dataLength, frame, r.2.out, r.2.ended⟩] ∧
        r.2.out.length ≤ dataLength + 1 ∧ (r.2.out.length < dataLength + 1 → r.2.ended = true))
      (fun _ p' => ∃ taken ended, p'.2 = p.2 ++ [⟨dataLength, frame, taken, ended⟩] ∧
        taken.length ≤ dataLength + 1) :=
    Exec.mapError_spec (Exec.logged_spec htake (fun _ s hpost => ⟨rfl, hpost⟩)
      fun _ s hpost => ⟨s.out, s.ended, rfl, hpost⟩)
  refine hlogged.bind fun r p' hpost => ?_
  obtain ⟨hlog, hle, hended⟩ := hpost
  exact ⟨r.2.ended, hlog, hle, fun hlen => hended (hlen ▸ Nat.lt_succ_self _)⟩

theorem loggedDecompress_spec {codec : PacketCodec} {threshold : Int32}
    (hsetting : codec.compressionThreshold = some threshold) (payload : Bytes) (s : σ) :
    (PacketCodec.loggedDecompress start read pace t payload threshold (s, [])).Satisfies
      (fun packet p => Opened t codec payload p.2 packet) (fun _ p => LogGuarded t codec payload p.2) := by
  refine (locally_readVarint_spec t payload (s, [])).seq (fun _ p hp => Or.inl (by rw [hp])) ?_
  intro r p hread
  obtain ⟨declared, frame⟩ := r
  obtain ⟨rfl, hread⟩ := hread
  dsimp only at hread ⊢
  cases hlen : Target.tryFromInt32 declared with
  | none => exact Or.inl rfl
  | some dataLength =>
      obtain ⟨rfl, -⟩ := Target.tryFromInt32_eq_some hlen
      simp only [Exec.ite_apply]
      by_cases hzero : dataLength = 0
      · subst hzero
        rw [if_pos rfl]
        exact Or.inr (Or.inl ⟨rfl, hread⟩)
      rw [if_neg hzero]
      by_cases hmax : dataLength > maxPacketSize
      · rw [if_pos hmax]
        exact Or.inl rfl
      rw [if_neg hmax]
      by_cases hbelow : dataLength < t.ofInt32 threshold
      · rw [if_pos hbelow]
        exact Or.inl rfl
      rw [if_neg hbelow]
      have hnonneg := codec.threshold_nonneg threshold hsetting
      rw [t.ofInt32_of_nonneg threshold hnonneg] at hbelow
      have hguarded : ∀ {taken : Bytes} {ended : Bool}, taken.length ≤ dataLength + 1 →
          (⟨dataLength, frame, taken, ended⟩ : Inflation).Guarded t codec payload := fun htaken =>
        ⟨hread, ⟨threshold, hsetting, by dsimp only; omega⟩, Nat.not_lt.mp hmax, htaken⟩
      refine (loggedInflate_spec start read pace frame dataLength (s, [])).seq ?_ ?_
      · intro _ p hpost
        obtain ⟨taken, ended, hlog, htaken⟩ := hpost
        exact Or.inr ⟨_, hlog, hguarded htaken⟩
      · intro out p hpost
        obtain ⟨ended, hlog, htaken, hended⟩ := hpost
        rw [Exec.ite_apply]
        split_ifs with hsize
        · exact Or.inr ⟨_, hlog, hguarded htaken⟩
        · have hsize := not_ne_iff.mp hsize
          exact Or.inr (Or.inr ⟨_, hlog, hguarded htaken, hended hsize, rfl, hsize⟩)

/-- What decoding says of a packet that it has accepted. -/
def Accepted (t : Target) (codec : PacketCodec) (payload : Bytes) (log : List Inflation) (packet : RawPacket) :
    Prop :=
  ∃ idBytes, readVarint t idBytes = .ok packet.id [] ∧
    Opened t codec payload log (idBytes ++ packet.body)

theorem Opened.logGuarded {t : Target} {codec : PacketCodec} {payload : Bytes} {log : List Inflation}
    {packet : Bytes} (h : Opened t codec payload log packet) : LogGuarded t codec payload log := by
  rcases h with ⟨-, hlog, -⟩ | ⟨hlog, -⟩ | ⟨entry, hlog, hguarded, -⟩
  · exact Or.inl hlog
  · exact Or.inl hlog
  · exact Or.inr ⟨entry, hlog, hguarded⟩

theorem Opened.length_le {t : Target} {codec : PacketCodec} {payload : Bytes} {log : List Inflation}
    {packet : Bytes} (h : Opened t codec payload log packet) (hpayload : payload.length ≤ maxPacketSize) :
    packet.length ≤ maxPacketSize := by
  rcases h with ⟨-, -, rfl⟩ | ⟨-, hread⟩ | ⟨entry, -, hguarded, -, -, hlen⟩
  · exact hpayload
  · have hle := varintLen_le_of_read hread
    omega
  · exact hlen ▸ hguarded.upper

theorem loggedDecodeFrame_spec (codec : PacketCodec) (payload : Bytes) (s : σ) :
    (codec.loggedDecodeFrame start read pace t payload (s, [])).Satisfies
      (fun packet p => Accepted t codec payload p.2 packet) (fun _ p => LogGuarded t codec payload p.2) := by
  have hopen : (codec.loggedOpenFrame start read pace t payload (s, [])).Satisfies
      (fun packet p => Opened t codec payload p.2 packet) (fun _ p => LogGuarded t codec payload p.2) := by
    unfold PacketCodec.loggedOpenFrame
    cases hsetting : codec.compressionThreshold with
    | none => exact Or.inl ⟨hsetting, rfl, rfl⟩
    | some threshold => exact loggedDecompress_spec start read pace t hsetting payload s
  refine hopen.bind fun packet p hopened => ?_
  refine (locally_readVarint_spec t packet p).seq (fun _ p' hp => hp ▸ hopened.logGuarded) ?_
  intro r p' hread
  obtain ⟨rfl, hread⟩ := hread
  obtain ⟨idBytes, hpacket, hid⟩ := (readVarint_spec t packet).of_ok hread
  exact ⟨idBytes, hid, hpacket ▸ hopened⟩

theorem loggedDecode_spec (codec : PacketCodec) (src : Bytes) :
    (codec.loggedDecode start read pace t src).Satisfies
      (fun r p => (r = none ∧ p.2 = []) ∨ ∃ packet payload rest, r = some packet ∧
        front src = .frame payload rest ∧ Accepted t codec payload p.2 packet)
      (fun _ p => p.2 = [] ∨ ∃ payload rest, front src = .frame payload rest ∧
        LogGuarded t codec payload p.2) := by
  unfold PacketCodec.loggedDecode
  cases hfront : front src with
  | incomplete => exact Or.inl ⟨rfl, rfl⟩
  | rejected e => exact Or.inl rfl
  | frame payload rest =>
      refine (loggedDecodeFrame_spec start read pace t codec payload rest).seq ?_ ?_
      · intro _ p hguarded
        exact Or.inr ⟨payload, rest, rfl, hguarded⟩
      · intro packet p haccepted
        exact Or.inr ⟨packet, payload, rest, rfl, rfl, haccepted⟩

end Bounds

theorem Accepted.length_le {t : Target} {codec : PacketCodec} {payload : Bytes} {log : List Inflation}
    {packet : RawPacket} (h : Accepted t codec payload log packet) (hpayload : payload.length ≤ maxPacketSize) :
    ∃ idBytes, readVarint t idBytes = .ok packet.id [] ∧
      idBytes.length + packet.body.length ≤ maxPacketSize ∧
      Opened t codec payload log (idBytes ++ packet.body) := by
  obtain ⟨idBytes, hid, hopened⟩ := h
  have hle := hopened.length_le hpayload
  rw [List.length_append] at hle
  exact ⟨idBytes, hid, hle, hopened⟩

/-- **No decompression bomb.** Whatever the setting, the buffer, the inflater and the sizes of the buffers
    it is read into: an accepted packet is within the size limit; the inflater is run at most once, only for
    a declared length within the guards, and gives at most one byte more than declared; a packet that was
    inflated is accepted only if the inflater ended after the declared length. -/
theorem decompression_bounded (start : Bytes → ρ) (read : ρ → Nat → ReadStep ρ) (pace : Nat → Nat) (t : Target)
    (codec : PacketCodec) (src : Bytes) :
    (codec.loggedDecode start read pace t src).Satisfies
      (fun r p => (r = none ∧ p.2 = []) ∨ ∃ packet payload rest, r = some packet ∧
        front src = .frame payload rest ∧
        ∃ idBytes, readVarint t idBytes = .ok packet.id [] ∧
          idBytes.length + packet.body.length ≤ maxPacketSize ∧
          Opened t codec payload p.2 (idBytes ++ packet.body))
      (fun _ p => p.2 = [] ∨ ∃ payload rest, front src = .frame payload rest ∧
        LogGuarded t codec payload p.2) ∧
    (∀ (z : Zlib) (R : ρ → Inflated → Prop), Realises read R → (∀ input, R (start input) (z.inflate input)) →
      (codec.loggedDecode start read pace t src).forget = codec.decode z t src) ∧
    ∀ (z : Zlib) (packet : RawPacket) (rest : Bytes), codec.decode z t src = .ok (some packet) rest →
      ∃ idBytes, readVarint t idBytes = .ok packet.id [] ∧
        idBytes.length + packet.body.length ≤ maxPacketSize := by
  refine ⟨?_, fun z R h hstart => loggedDecode_forget h hstart pace t codec src, fun z packet rest hdecode => ?_⟩
  · refine (loggedDecode_spec start read pace t codec src).mono (fun r p hpost => ?_) fun _ _ herror => herror
    rcases hpost with hnone | ⟨packet, payload, rest, hr, hfront, haccepted⟩
    · exact Or.inl hnone
    · exact Or.inr ⟨packet, payload, rest, hr, hfront, haccepted.length_le (front_frame_bounds hfront).2⟩
  · -- every inflater has a reader
    have hforget : (codec.loggedDecode z.inflate Inflated.read id t src).forget = codec.decode z t src :=
      loggedDecode_forget Inflated.read_realises (fun _ => rfl) id t codec src
    have hspec := loggedDecode_spec z.inflate Inflated.read id t codec src
    rw [hdecode] at hforget
    rcases hspec.exists with ⟨r, p, hrun⟩ | ⟨e, p, hrun⟩
    · rw [hrun] at hforget
      obtain ⟨rfl, -⟩ := Outcome.ok.inj hforget
      rcases hspec.of_ok hrun with ⟨hnone, -⟩ | ⟨packet', payload, rest', hr, hfront, haccepted⟩
      · cases hnone
      · obtain rfl := Option.some.inj hr
        obtain ⟨idBytes, hid, hle, -⟩ := haccepted.length_le (front_frame_bounds hfront).2
        exact ⟨idBytes, hid, hle⟩
    · rw [hrun] at hforget
      cases hforget

/-! ## Behind the end of the stream -/

/-- If a frame with a data length is accepted, then it is the data length and one stream for as many bytes. -/
def AllBytesInflated (z : Zlib) (t : Target) (codec : PacketCodec) (Stream : Bytes → Bytes → Prop)
    (src : Bytes) : Prop :=
  ∀ (packet : RawPacket) (payload rest input : Bytes) (n : Int32),
    codec.decode z t src = .ok (some packet) rest → front src = .frame payload rest →
    readVarint t payload = .ok n input → n ≠ 0 →
    ∃ out : Bytes, Stream input out ∧ (out.length : Int) = n.toInt

/-- The buffer starts with a frame that would be right but for more bytes behind its stream. -/
def BytesBehindStream (t : Target) (threshold : Int32) (Stream : Bytes → Bytes → Prop) (src : Bytes) : Prop :=
  ∃ (payload rest s more out body : Bytes) (n id : Int32),
    front src = .frame payload rest ∧ readVarint t payload = .ok n (s ++ more) ∧ more ≠ [] ∧
    Stream s out ∧ (out.length : Int) = n.toInt ∧ max threshold.toInt 1 ≤ n.toInt ∧
    n.toInt ≤ maxPacketSize ∧ readVarint t out = .ok id body

theorem inflate_of_openFrame {z : Zlib} {t : Target} {codec : PacketCodec} {threshold n : Int32}
    {payload input packet : Bytes} {s s' : σ} (hsetting : codec.compressionThreshold = some threshold)
    (hread : readVarint t payload = .ok n input) (hne : n ≠ 0)
    (h : codec.openFrame z t payload s = .ok packet s') :
    (packet.length : Int) = n.toInt ∧ max threshold.toInt 1 ≤ n.toInt ∧ n.toInt ≤ maxPacketSize ∧
      z.inflate input = ⟨packet, .ok ()⟩ := by
  have hnonneg := codec.threshold_nonneg threshold hsetting
  unfold PacketCodec.openFrame at h
  rw [hsetting] at h
  simp only [PacketCodec.decompress, Exec.bind_apply, Exec.locally_of_ok hread, Exec.pure_apply,
    Outcome.bind_ok] at h
  cases hdeclared : Target.tryFromInt32 n with
  | none =>
      rw [hdeclared] at h
      cases h
  | some dataLength =>
      obtain ⟨rfl, hlt⟩ := Target.tryFromInt32_eq_some hdeclared
      have hvalue := int32_ofNat_toInt hlt
      simp only [hdeclared, Exec.ite_apply, t.ofInt32_of_nonneg threshold hnonneg] at h
      split_ifs at h with hzero hmax hbelow
      · exact absurd (congrArg Int32.ofNat hzero) hne
      · cases h
      · cases h
      · cases hinflate : (z.inflate input).readToEnd (dataLength + 1) with
        | error reason =>
            rw [hinflate] at h
            cases h
        | ok out =>
            simp only [hinflate, Exec.ite_apply] at h
            split_ifs at h with hsize
            · cases h
            · have hsize := not_ne_iff.mp hsize
              obtain ⟨rfl, -⟩ := Outcome.ok.inj h
              refine ⟨by omega, by omega, by omega, ?_⟩
              exact Inflated.of_readToEnd hinflate (by omega)

/-- What a packet has been read from, if its frame was accepted. -/
theorem decode_ok_of_front {z : Zlib} {t : Target} {codec : PacketCodec} {src payload rest rest' : Bytes}
    {packet : RawPacket} (hfront : front src = .frame payload rest)
    (h : codec.decode z t src = .ok (some packet) rest') :
    ∃ bytes rest₁, codec.openFrame z t payload rest = .ok bytes rest₁ ∧
      readVarint t bytes = .ok packet.id packet.body := by
  rw [decode_of_front hfront] at h
  obtain ⟨packet', rest₂, hframe, hsome⟩ := Outcome.bind_eq_ok h
  obtain ⟨bytes, rest₁, hopen, hrest⟩ := Outcome.bind_eq_ok hframe
  obtain ⟨r, _, hread, hpacket⟩ := Outcome.bind_eq_ok hrest
  have hid := Exec.locally_eq_ok hread
  obtain ⟨rfl, -⟩ := Outcome.ok.inj hpacket
  obtain ⟨hsame, -⟩ := Outcome.ok.inj hsome
  obtain rfl := Option.some.inj hsame
  exact ⟨bytes, rest₁, hopen, hid⟩

/-- **Bytes behind the stream.** With compression on, an accepted frame is one whole stream exactly when the
    buffer does not start with a frame that has more bytes behind a stream it would be accepted for: the
    codec looks at the size of what was inflated, and not at how much of the frame that took. -/
theorem allBytesInflated_iff {z : Zlib} {Stream : Bytes → Bytes → Prop} (hz : InflatesStreams z Stream)
    (t : Target) (codec : PacketCodec) (threshold : Int32)
    (hsetting : codec.compressionThreshold = some threshold) (src : Bytes) :
    AllBytesInflated z t codec Stream src ↔ ¬ BytesBehindStream t threshold Stream src := by
  constructor
  · rintro hall ⟨payload, rest, s, more, out, body, n, id, hfront, hread, hmore, hstream, hlen, hlower, hupper, hid⟩
    have hopen : (codec.openFrame z t payload : Exec ProtocolError Bytes Bytes) = pure out :=
      openFrame_of_inflate hsetting hread hlen hlower hupper (hz.decodes more hstream)
    have hdecode : codec.decode z t src = .ok (some ⟨id, body⟩) rest := by
      rw [decode_of_front hfront]
      simp only [PacketCodec.decodeFrame, hopen, Exec.map_apply, Exec.bind_apply, Exec.pure_apply,
        Outcome.bind_ok, Exec.locally_of_ok hid]
    have hne : n ≠ 0 := by
      rintro rfl
      exact absurd (le_trans (le_max_right _ _) hlower) (by decide)
    obtain ⟨out', hstream', -⟩ := hall ⟨id, body⟩ payload rest (s ++ more) n hdecode hfront hread hne
    exact hmore (hz.delimited hstream hstream')
  · intro hnot packet payload rest input n hdecode hfront hread hne
    obtain ⟨out, _, hopen, hid⟩ := decode_ok_of_front hfront hdecode
    obtain ⟨hlen, hlower, hupper, hinflate⟩ := inflate_of_openFrame hsetting hread hne hopen
    obtain ⟨s, more, rfl, hstream⟩ := hz.ends hinflate
    by_cases hmore : more = []
    · subst hmore
      rw [List.append_nil]
      exact ⟨out, hstream, hlen⟩
    · exact absurd ⟨payload, rest, s, more, out, packet.body, n, packet.id, hfront, hread, hmore, hstream,
        hlen, hlower, hupper, hid⟩ hnot

/-- A status request in one stored block, and `more` behind it. -/
def statusRequestFrame (more : Bytes) : Bytes := frameBytes (1 :: storedStream [0] ++ more)

theorem front_statusRequestFrame (more : Bytes) (h : more.length ≤ 1) :
    front (statusRequestFrame more) = .frame (1 :: storedStream [0] ++ more) [] := by
  have hlen : (1 :: storedStream [0] ++ more).length ≤ maxPacketSize := by
    simp only [List.length_append, List.length_cons, length_storedStream, maxPacketSize, List.length_nil]
    omega
  have hfront := front_frameBytes hlen []
  rwa [List.append_nil] at hfront

theorem readVarint_statusRequest (t : Target) (more : Bytes) :
    readVarint t (1 :: storedStream [0] ++ more) = .ok 1 (storedStream [0] ++ more) := by
  have hone : varintBytes 1 = [1] := lebBytes_of_lt (by decide)
  have hread := readVarint_append t 1 (storedStream [0] ++ more)
  rwa [hone] at hread

theorem allBytesInflated_statusRequest :
    AllBytesInflated Zlib.storedBlock .bits64 (PacketCodec.new.setCompression 0) IsStoredStream
      (statusRequestFrame []) := by
  refine (allBytesInflated_iff storedBlock_inflatesStreams .bits64 (PacketCodec.new.setCompression 0) 0 rfl
    (statusRequestFrame [])).mpr ?_
  rintro ⟨payload, rest, s, more, out, body, n, id, hfront, hread, hmore, ⟨-, rfl⟩, hlen, -⟩
  rw [front_statusRequestFrame [] (by decide)] at hfront
  obtain ⟨rfl, rfl⟩ := Front.frame.inj hfront
  rw [readVarint_statusRequest] at hread
  obtain ⟨rfl, hstream⟩ := Outcome.ok.inj hread
  have hone : (1 : Int32).toInt = 1 := rfl
  have hlengths := congrArg List.length hstream
  simp only [List.append_nil, List.length_append, length_storedStream, List.length_singleton] at hlengths
  exact hmore (List.length_eq_zero_iff.mp (by omega))

/-- A byte behind the stream, which nobody ever sees. -/
theorem byte_behind_stream_accepted :
    InflatesStreams Zlib.storedBlock IsStoredStream ∧
      statusRequestFrame [170] = [14, 1, 120, 1, 1, 1, 0, 254, 255, 0, 0, 1, 0, 1, 170] ∧
      (PacketCodec.new.setCompression 0).decode Zlib.storedBlock .bits64 (statusRequestFrame [170]) =
        .ok (some ⟨0, []⟩) [] ∧
      ¬ AllBytesInflated Zlib.storedBlock .bits64 (PacketCodec.new.setCompression 0) IsStoredStream
        (statusRequestFrame [170]) := by
  have hfront := front_statusRequestFrame [170] (by decide)
  have hread := readVarint_statusRequest .bits64 [170]
  have hstream : IsStoredStream (storedStream [0]) [0] := ⟨by decide, rfl⟩
  have hopen : ((PacketCodec.new.setCompression 0).openFrame Zlib.storedBlock .bits64
      (1 :: storedStream [0] ++ [170]) : Exec ProtocolError Bytes Bytes) = pure [0] :=
    openFrame_of_inflate rfl hread rfl (by decide) (by decide)
      (storedBlock_inflatesStreams.decodes [170] hstream)
  have hdecode : (PacketCodec.new.setCompression 0).decode Zlib.storedBlock .bits64 (statusRequestFrame [170]) =
      .ok (some ⟨0, []⟩) [] := by
    rw [decode_of_front hfront]
    simp only [PacketCodec.decodeFrame, hopen]
    rfl
  refine ⟨storedBlock_inflatesStreams, by decide +kernel, hdecode, fun hall => ?_⟩
  obtain ⟨out, hwhole, -⟩ := hall _ _ _ _ _ hdecode hfront hread (by decide)
  exact absurd (storedBlock_inflatesStreams.delimited hstream hwhole) (by decide)

end Pyrite.Protocol
