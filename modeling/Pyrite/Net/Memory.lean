import Pyrite.Net.Suspended
import Pyrite.Protocol.Reserve

set_option autoImplicit false

/-! # Read buffers

A frame is announced before it arrives, so a codec that believed its peers could be made to grow its read buffer
far beyond what they have sent. Here the room that it asks for follows the bytes that are there, and not the
lengths that they declare (`read_buffer_follows_input`).

Only the read buffers are counted. What decompressing a frame takes is bounded by what the frame declares, and is
there only while the frame is handled (`Protocol.decompression_bounded`). -/

namespace Pyrite.Net

open Wire Protocol

/-- What the `decode` that a connection waits after has asked of its read buffer. It was called on what is unread. -/
def Session.reservations (env : Env) : Session → List Reservation
  | (.waiting s, buffer) =>
    match s.codec.reservingDecode env.zlib env.target (buffer, []) with
    | .ok _ p => p.2
    | .error _ p => p.2
    | .panic => []
    | .diverge => []
  | (.ended _, _) => []

/-- How many bytes it has asked for beyond those that are there. -/
def Session.asked (env : Env) (session : Session) : Nat :=
  ((session.reservations env).map (·.additional)).sum

/-- How many bytes the buffer must have room for. -/
def Session.room (env : Env) (session : Session) : Nat := session.unread + session.asked env

variable {env : Env} {config : ServerConfig} {t : Target} {options : ServeOptions} {r : Nat}

theorem Session.reservations_waiting (env : Env) (s : Connection) (buffer : Bytes) :
    Session.reservations env (.waiting s, buffer) = [] ∨
      ∃ r : Reservation, r.Stepwise buffer ∧ Session.reservations env (.waiting s, buffer) = [r] := by
  have hspec := reservingDecode_spec env.zlib env.target s.codec buffer []
  simp only [Session.reservations]
  cases hdecode : s.codec.reservingDecode env.zlib env.target (buffer, []) with
  | ok packet p =>
      rw [hdecode] at hspec
      rcases hspec with hnothing | ⟨-, r, hr, hlog⟩
      · exact Or.inl hnothing
      · exact Or.inr ⟨r, hr, hlog⟩
  | error e p =>
      rw [hdecode] at hspec
      exact Or.inl hspec
  | panic => exact Or.inl rfl
  | diverge => exact Or.inl rfl

/-- A connection has asked for nothing, or for one step beyond what is unread. -/
theorem Session.asked_cases (env : Env) (session : Session) :
    session.asked env = 0 ∨ (session.live = true ∧ 0 < session.unread ∧
      session.asked env ≤ maxSpeculativeReserve ∧ session.room env ≤ maxVarintLen + maxPacketSize) := by
  obtain ⟨f, buffer⟩ := session
  cases f with
  | ended outcome => exact Or.inl rfl
  | waiting s =>
      rcases Session.reservations_waiting env s buffer with hnothing | ⟨r, hr, hone⟩
      · exact Or.inl (by simp [Session.asked, hnothing])
      · have hasked : Session.asked env (.waiting s, buffer) = r.additional := by simp [Session.asked, hone]
        have hunread : r.held = Session.unread (.waiting s, buffer) := hr.held
        refine Or.inr ⟨rfl, hunread ▸ hr.begun, hasked.trans_le hr.step, ?_⟩
        rw [Session.room, hasked, ← hunread]
        exact hr.within

/-- **Read buffers follow the input**, at every moment, also while handlers are suspended. The requests are those of the
    codec. Let a connection read at most `r` bytes at a time. In every state that the system can reach: the room
    that a connection asks for is at most one step beyond the bytes that are there, whatever length these
    declare; with none there, it asks for none; if it awaits input, it asks for no more than the largest frame,
    and otherwise for no more than that and what it has read last. So all connections together ask for at most
    one step for each permit beyond the unread bytes of all. -/
theorem read_buffer_follows_input {hub : Hub} (h : hub.Suspended env config r t options) :
    (∀ (codec : PacketCodec) (src : Bytes), (codec.reservingDecode env.zlib env.target (src, [])).forget
      = codec.decode env.zlib env.target src) ∧
    (∀ session ∈ hub.sessions,
      session.room env ≤ session.unread + maxSpeculativeReserve ∧
      (session.unread = 0 → session.room env = 0) ∧
      (session.Awaits env → session.room env ≤ maxVarintLen + maxPacketSize) ∧
      session.room env ≤ maxVarintLen + maxPacketSize + r) ∧
    (hub.sessions.map (Session.room env)).sum
      ≤ (hub.sessions.map Session.unread).sum + options.maxConnections * maxSpeculativeReserve := by
  obtain ⟨events, coarse, hrun, hamid⟩ := suspended_refines h
  have hlive := hamid.live_le (hub_ran hrun)
  refine ⟨fun codec src => erases_decode env.zlib env.target codec src [], ?_, ?_⟩
  · intro session hmem
    have hunread := hamid.unread_lt session hmem
    rcases session.asked_cases env with hasked | ⟨-, hbegun, hasked, hwithin⟩
    · have hroom : session.room env = session.unread := by rw [Session.room, hasked, Nat.add_zero]
      rw [hroom]
      exact ⟨Nat.le_add_right _ _, id, fun hawaits => hawaits.unread_lt.le, hunread.le⟩
    · refine ⟨Nat.add_le_add_left hasked _, fun hnothing => by omega, fun _ => hwithin, by omega⟩
  · have hasked : (hub.sessions.map (Session.asked env)).sum
        ≤ hub.sessions.countP Session.live * maxSpeculativeReserve := by
      refine sum_map_le_countP_mul fun session _ => ?_
      rcases session.asked_cases env with hnothing | ⟨hlive, -, hstep, -⟩
      · exact ⟨hnothing ▸ Nat.zero_le _, fun _ => hnothing⟩
      · exact ⟨hstep, fun hended => absurd hended (by simp [hlive])⟩
    calc (hub.sessions.map (Session.room env)).sum
        = (hub.sessions.map Session.unread).sum + (hub.sessions.map (Session.asked env)).sum := List.sum_map_add
      _ ≤ (hub.sessions.map Session.unread).sum + hub.sessions.countP Session.live * maxSpeculativeReserve :=
          Nat.add_le_add_left hasked _
      _ ≤ (hub.sessions.map Session.unread).sum + options.maxConnections * maxSpeculativeReserve :=
          Nat.add_le_add_left (Nat.mul_le_mul_right _ hlive) _

/-- A peer declares the largest frame there can be, and sends none of it. -/
theorem read_buffer_follows_input_lying :
    ∃ hub : Hub, hub.Suspended storedEnv .default 3 .bits64 ⟨1⟩ ∧
      (hub.sessions.map (Session.room storedEnv)).sum = 3 + 8192 ∧
      (hub.sessions.map (Session.room storedEnv)).sum ≤ 3 + 1 * maxSpeculativeReserve := by
  have hread : Hub.Runs storedEnv .default 3 ⟨⟨0, [.serving], 1, 0, .listening⟩, [0], [.fresh .default]⟩
      ⟨⟨0, [.serving], 1, 0, .listening⟩, [0], [(.waiting (.new .default), [255, 255, 127])]⟩ :=
    .session (n := 0) rfl rfl (.reads [255, 255, 127] rfl le_rfl)
  have hsuspended := (suspended_admitted 3).runs hread
  exact ⟨_, hsuspended, rfl, (read_buffer_follows_input hsuspended).2.2⟩

end Pyrite.Net
