import Pyrite.Net.Login
import Pyrite.Net.Send

set_option autoImplicit false

/-! # Violations are not transport noise

An error counts as noise if it is a timeout or a `ProtocolError::Io`. No decoder returns the latter, so a
handler that fails without a failing send fails with a violation (`violations_are_not_noise`). -/

namespace Pyrite.Net

open Wire Protocol

variable {env : Env}

/-! ## Noise from a handler -/

theorem Clientbound.frame_error {z : Zlib} (hz : Deflates z) {threshold : Option Int32}
    {packet : Clientbound} {e : ProtocolError} (h : packet.frame z threshold = .error e) :
    e.isIo = false := by
  rcases Clientbound.frame_of_deflates hz threshold packet with ⟨p, -, hframe⟩ | ⟨-, hframe⟩
  · rw [h] at hframe
    cases hframe
  · rw [h] at hframe
    obtain rfl := Except.error.inj hframe
    rfl

theorem length_frameBytes_pos (p : Bytes) : 0 < (frameBytes p).length := by
  have hpos := length_varintBytes_pos (Int32.ofNat p.length)
  rw [frameBytes, List.length_append]
  omega

/-- A send between `s` and `s'` failed, the last one. -/
def SendFailed (env : Env) (s s' : Connection) : Prop :=
  s.written.length < s'.written.length ∧ ∃ reason, env.flush s'.written = .error reason

/-- A handler only appends to what was written, and fails with noise only where a send failed. -/
theorem noise_discipline (hz : Deflates env.zlib) :
    Discipline env (fun s s' => s.written <+: s'.written)
      (fun s e s' => s.written <+: s'.written ∧ (e.isTransportNoise = true → SendFailed env s s')) where
  silent hwritten _ := by rw [hwritten]
  violation hwritten _ hnoise := by
    rw [hwritten, hnoise]
    exact ⟨List.prefix_rfl, fun h => absurd h Bool.false_ne_true⟩
  trans h₁ h₂ := h₁.trans h₂
  fails h₁ h₂ := by
    refine ⟨h₁.trans h₂.1, fun hnoise => ?_⟩
    obtain ⟨hlt, hflush⟩ := h₂.2 hnoise
    exact ⟨lt_of_le_of_lt h₁.length_le hlt, hflush⟩
  send packet s := by
    obtain ⟨codec, -, hcases⟩ := send_cases env packet s
    rcases hcases with ⟨p, -, -, hsend⟩ | ⟨p, reason, -, hflush, hsend⟩ | ⟨e, hframe, hsend⟩
    · rw [hsend]
      exact List.prefix_append _ _
    · rw [hsend]
      refine ⟨List.prefix_append _ _, fun _ => ⟨?_, reason, hflush⟩⟩
      have hpos := length_frameBytes_pos p
      show s.written.length < (s.written ++ frameBytes p).length
      rw [List.length_append]
      omega
    · rw [hsend]
      refine ⟨List.prefix_rfl, fun hnoise => ?_⟩
      rw [isTransportNoise_protocol, Clientbound.frame_error hz hframe] at hnoise
      cases hnoise

/-! ## Violations -/

/-- `decodeAs` never reports a transport error, whatever the body. -/
def NeverIo (P : Type) [Packet P] : Prop :=
  ∀ (σ : Type) (t : Target) (frame : RawPacket) (s s' : σ) (reason : String),
    (frame.decodeAs P t : Exec ProtocolError σ P) s ≠ .error (.io reason) s'

theorem neverIo (P : Type) [Packet P] [ViolatingPacket P] : NeverIo P := by
  intro σ t frame s s' reason
  exact (decodeAs_violates P t frame).not_error (by simp [ProtocolError.isIo])

/-- Every send between `s` and `s'` succeeded: the transport was content with everything written since. -/
def SendsSucceed (env : Env) (s s' : Connection) : Prop :=
  ∀ written, s.written <+: written → written <+: s'.written → written ≠ s.written →
    env.flush written = .ok ()

/-- **Violations are not noise.** Neither the framing codec nor any packet type reports a transport error,
    so a handler whose sends succeed never fails with one. -/
theorem violations_are_not_noise :
    (∀ (z : Zlib) (t : Target) (codec : PacketCodec) (src rest : Bytes) (reason : String),
      codec.decode z t src ≠ .error (.io reason) rest) ∧
    (NeverIo Handshake ∧ NeverIo StatusRequest ∧ NeverIo StatusResponse ∧ NeverIo PingRequest ∧
      NeverIo PongResponse ∧ NeverIo LoginDisconnect ∧ NeverIo LoginStart ∧ NeverIo SetCompression ∧
      NeverIo LoginSuccess ∧ NeverIo LoginAcknowledged) ∧
    (∀ (env : Env) (frame : RawPacket) (s s' : Connection) (e : NetError), Deflates env.zlib →
      Connection.handle env frame s = .error e s' → SendsSucceed env s s' → e.isTransportNoise = false) := by
  refine ⟨?_, ⟨neverIo _, neverIo _, neverIo _, neverIo _, neverIo _, neverIo _, neverIo _, neverIo _,
    neverIo _, neverIo _⟩, ?_⟩
  · intro z t codec src rest reason
    exact (decode_violates z t codec).not_error (by simp [ProtocolError.isIo])
  · intro env frame s s' e hz herror hsends
    have hspec := (noise_discipline hz).handle frame s
    rw [herror] at hspec
    obtain ⟨hwritten, hnoise⟩ := hspec
    by_contra hnot
    obtain ⟨hlt, reason, hflush⟩ := hnoise (Bool.not_eq_false _ ▸ hnot)
    have hne : s'.written ≠ s.written := by
      intro heq
      rw [heq] at hlt
      exact lt_irrefl _ hlt
    rw [hsends s'.written hwritten List.prefix_rfl hne] at hflush
    cases hflush

/-- The error of a run that failed. -/
def errorOf : Outcome NetError Connection Flow → Option NetError
  | .error e _ => some e
  | _ => none

theorem handle_of_errorOf {frame : RawPacket} {s : Connection} {e : NetError}
    (h : errorOf (Connection.handle env frame s) = some e) :
    ∃ s', Connection.handle env frame s = .error e s' := by
  unfold errorOf at h
  split at h
  · rename_i e' s' heq
    obtain rfl := Option.some.inj h
    exact ⟨s', heq⟩
  · cases h

/-- A `LoginStart` without a name is answered, and the error that follows is a violation. -/
theorem invalid_username_is_not_noise :
    ∃ s', Connection.handle storedEnv ⟨0, List.replicate 17 0⟩ inLogin
        = .error (.invalidUsername "") s' ∧
      (NetError.invalidUsername "").isTransportNoise = false := by
  obtain ⟨s', herror⟩ : ∃ s', Connection.handle storedEnv ⟨0, List.replicate 17 0⟩ inLogin
      = .error (.invalidUsername "") s' := handle_of_errorOf (by decide +kernel)
  refine ⟨s', herror, violations_are_not_noise.2.2 _ _ _ _ _ ?_ herror ?_⟩
  · intro input
    exact ⟨_, rfl⟩
  · intro written _ _ _
    rfl

end Pyrite.Net
