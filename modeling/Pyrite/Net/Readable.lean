import Pyrite.Net.Identity
import Pyrite.Net.Status
import Pyrite.Protocol.Stream

set_option autoImplicit false

/-! # What the client reads

A login switches the frame format in the middle of the stream, at the packet that announces it. The client
follows: it starts uncompressed and switches where it reads a `SetCompression`. Three facts about runs
carry this. What was written is the frames of the packets in the log (`Run.framesOf`); each packet was
framed under the setting that the packets before it announce (`Run.inStep`); and every frame is within the
size limit (`Run.fits`). A client then reads what was sent, and nothing is left over (`output_readable`). -/

namespace Pyrite.Net

open Wire Protocol

variable {env : Env} {config : ServerConfig} {history : List (Connection × RawPacket)} {live : Bool}
  {s : Connection}

/-! ## The bytes on the wire -/

/-- The bytes are the frames of the packets, one after the other, each under its own threshold. -/
def FramesOf (z : Zlib) : List Emitted → Bytes → Prop
  | [], written => written = []
  | e :: sent, written => ∃ p rest, e.packet.frame z e.threshold = .ok p ∧
      written = frameBytes p ++ rest ∧ FramesOf z sent rest

theorem FramesOf.concat {z : Zlib} {sent : List Emitted} {written p : Bytes} {e : Emitted}
    (h : FramesOf z sent written) (hframe : e.packet.frame z e.threshold = .ok p) :
    FramesOf z (sent ++ [e]) (written ++ frameBytes p) := by
  induction sent generalizing written with
  | nil =>
      obtain rfl : written = [] := h
      exact ⟨p, [], hframe, (List.append_nil _).symm, rfl⟩
  | cons e' sent ih =>
      obtain ⟨p', rest, hframe', rfl, hrest⟩ := h
      exact ⟨p', rest ++ frameBytes p, hframe', List.append_assoc _ _ _, ih hrest⟩

/-- Every handler keeps the log and the bytes together, also when it fails. -/
theorem frames_discipline (env : Env) :
    Discipline env (fun s s' => FramesOf env.zlib s.sent s.written → FramesOf env.zlib s'.sent s'.written)
      (fun s _ s' => FramesOf env.zlib s.sent s.written → FramesOf env.zlib s'.sent s'.written) where
  silent hwritten hsent h := by rwa [hwritten, hsent]
  violation hwritten hsent _ h := by rwa [hwritten, hsent]
  trans h₁ h₂ h := h₂ (h₁ h)
  fails h₁ h₂ h := h₂ (h₁ h)
  send packet s := by
    obtain ⟨codec, -, hcases⟩ := send_cases env packet s
    rcases hcases with ⟨p, hframe, -, hsend⟩ | ⟨p, reason, hframe, -, hsend⟩ | ⟨e, -, hsend⟩
    · rw [hsend]
      intro h
      exact h.concat hframe
    · rw [hsend]
      intro h
      exact h.concat hframe
    · rw [hsend]
      intro h
      exact h

theorem Run.framesOf (h : Run env config history live s) : FramesOf env.zlib s.sent s.written := by
  induction h with
  | fresh => rfl
  | @proceed history s s' frame _ hstep ih =>
      have hkeeps := (frames_discipline env).handle frame s
      rw [hstep] at hkeeps
      exact hkeeps ih
  | @close history s s' frame _ hstep ih =>
      have hkeeps := (frames_discipline env).handle frame s
      rw [hstep] at hkeeps
      exact hkeeps ih
  | @fail history s s' frame e _ hstep ih =>
      have hkeeps := (frames_discipline env).handle frame s
      rw [hstep] at hkeeps
      exact hkeeps ih

/-! ## The setting along the stream -/

/-- The compression setting after a packet has gone by. A negative threshold disables compression. -/
def settingAfter (setting : Option Int32) (e : Emitted) : Option Int32 :=
  match e.packet with
  | .setCompression packet => if packet.threshold.toInt < 0 then none else some packet.threshold
  | _ => setting

/-- Every packet is framed under the setting that the packets before it leave behind. -/
def InStep : Option Int32 → List Emitted → Prop
  | _, [] => True
  | setting, e :: sent => e.threshold = setting ∧ InStep (settingAfter setting e) sent

theorem inStep_append {setting : Option Int32} {xs ys : List Emitted} :
    InStep setting (xs ++ ys) ↔ InStep setting xs ∧ InStep (xs.foldl settingAfter setting) ys := by
  induction xs generalizing setting with
  | nil => simp [InStep]
  | cons e xs ih => simp only [List.cons_append, InStep, ih, List.foldl_cons, and_assoc]

theorem InStep.initial {setting : Option Int32} {xs ys : List Emitted} (h : InStep setting ys)
    (hpart : xs <+: ys) : InStep setting xs := by
  obtain ⟨more, rfl⟩ := hpart
  exact (inStep_append.mp h).1

theorem inStep_singleton (packet : Clientbound) (setting : Option Int32) :
    InStep setting [⟨packet, setting⟩] := ⟨rfl, trivial⟩

/-- The answer to a login is in step, and leaves the setting that the server switches to. -/
theorem inStep_loginEntries (env : Env) (s : Connection) (start : LoginStart) :
    InStep s.codec.compressionThreshold (loginEntries env s start) ∧
      (loginEntries env s start).foldl settingAfter s.codec.compressionThreshold = negotiated s := by
  unfold loginEntries compressionEntries negotiated
  cases s.config.compressionThreshold with
  | none => exact ⟨⟨rfl, trivial⟩, rfl⟩
  | some threshold => exact ⟨⟨rfl, rfl, trivial⟩, rfl⟩

/-! ## What one frame is answered with -/

/-- What is asked of the code outside: inflating undoes deflating, the deflated form of a few hundred bytes
    is within the size limit, and the text of a refusal is a few hundred bytes. -/
structure ShortLogins (env : Env) : Prop where
  inverts : env.zlib.Inverts
  deflated : ∀ input output, input.length ≤ 600 → env.zlib.deflate input = .ok output →
    output.length + 5 ≤ maxPacketSize
  reason : ∀ reason, env.textToJson refusal = .ok reason → (utf8 reason).length ≤ 512

/-- Where a packet belongs: to the status exchange, where nothing announces compression, or to a login,
    where it is short. -/
def Belongs (s : Connection) (e : Emitted) : Prop :=
  (s.state.current = .status ∧ e.threshold = s.codec.compressionThreshold ∧ e.isSetCompression = false) ∨
    (s.state.current = .login ∧ e.packet.bytes.length ≤ 600)

theorem length_loginDisconnect_le {reason : String} (h : (utf8 reason).length ≤ 512) :
    (Clientbound.loginDisconnect { reason }).bytes.length ≤ 600 := by
  have hid := length_varintBytes_le (Packet.id LoginDisconnect)
  have hstring := length_stringBytes_le reason
  simp only [maxVarintLen] at hid
  simp only [Clientbound.bytes, Clientbound.raw, PlainPacket.body, List.length_append]
  omega

theorem belongs_loginEntries {start : LoginStart} (hstate : s.state.current = .login)
    (hname : NameValid start.name) {e : Emitted} (he : e ∈ loginEntries env s start) : Belongs s e := by
  refine Or.inr ⟨hstate, ?_⟩
  unfold loginEntries compressionEntries at he
  rcases List.mem_append.mp he with he | he
  · cases hthreshold : s.config.compressionThreshold with
    | none =>
        rw [hthreshold] at he
        cases he
    | some threshold =>
        rw [hthreshold] at he
        rw [List.mem_singleton.mp he]
        exact le_trans (length_setCompression_le _) (by decide)
  · rw [List.mem_singleton.mp he]
    exact le_trans (length_loginSuccess_le env hname) (by decide)

/-- **One step.** What a frame is answered with is in step with what was sent before, and where the connection
    goes on its codec is in step with the answer. -/
theorem Step.answer {frame : RawPacket} {s' : Connection} (henv : ShortLogins env)
    (h : Step env s frame live s') :
    ∃ entries, s'.sent = s.sent ++ entries ∧ InStep s.codec.compressionThreshold entries ∧
      (live = true →
        s'.codec.compressionThreshold = entries.foldl settingAfter s.codec.compressionThreshold) ∧
      ∀ e ∈ entries, Belongs s e := by
  cases h with
  | handshake handshake _ _ _ heffect =>
      exact ⟨[], heffect.sent, trivial, fun _ => heffect.threshold, by simp⟩
  | statusRequest json hstate _ _ hentries hlive heffect =>
      refine ⟨_, heffect.sent, (inStep_singleton _ _).initial hentries, fun hl => ?_, fun e he => ?_⟩
      · rw [heffect.threshold, hlive hl]
        rfl
      · rw [List.mem_singleton.mp (hentries.subset he)]
        exact Or.inl ⟨hstate, rfl, rfl⟩
  | ping ping hstate _ _ hentries heffect =>
      refine ⟨_, heffect.sent, (inStep_singleton _ _).initial hentries, by simp, fun e he => ?_⟩
      rw [List.mem_singleton.mp (hentries.subset he)]
      exact Or.inl ⟨hstate, rfl, rfl⟩
  | loginStart start hstate _ haccepts hentries hlive heffect =>
      obtain ⟨hstep, hfinal⟩ := inStep_loginEntries env s start
      refine ⟨_, heffect.sent, hstep.initial hentries, fun hl => ?_, fun e he => ?_⟩
      · obtain ⟨hfull, hthreshold⟩ := hlive hl
        rw [heffect.threshold, hthreshold, hfull, hfinal]
      · exact belongs_loginEntries hstate (validateUsername_iff.mp haccepts.2) (hentries.subset he)
  | loginRefused start reason hstate _ _ _ hreason hentries heffect =>
      refine ⟨_, heffect.sent, (inStep_singleton _ _).initial hentries, by simp, fun e he => ?_⟩
      rw [List.mem_singleton.mp (hentries.subset he)]
      exact Or.inr ⟨hstate, length_loginDisconnect_le (henv.reason reason hreason)⟩
  | loginAcknowledged _ _ heffect =>
      exact ⟨[], heffect.sent, trivial, fun _ => heffect.threshold, by simp⟩
  | refused _ _ _ => exact ⟨[], (List.append_nil _).symm, trivial, fun _ => rfl, by simp⟩

/-! ## Whole runs -/

/-- A handshake of the run asked for a login. -/
def LoginAsked (env : Env) (history : List (Connection × RawPacket)) : Prop :=
  ∃ entry ∈ history, AsksFor env entry .login ∨ AsksFor env entry .transfer

theorem LoginAsked.concat {entry : Connection × RawPacket} (h : LoginAsked env history) :
    LoginAsked env (history ++ [entry]) := by
  obtain ⟨asking, hmem, hasks⟩ := h
  exact ⟨asking, List.mem_append_left _ hmem, hasks⟩

theorem Run.loginAsked (h : Run env config history live s) :
    s.state.current = .login → LoginAsked env history := by
  refine Run.step_induction (P := fun history _ s => s.state.current = .login → LoginAsked env history) ?_ ?_ h
  · intro hstate
    cases hstate
  · intro history s frame live s' _ ih hstep hstate
    rcases hstep.current with hkept | ⟨hhandshaking, -⟩ | ⟨hlogin, -⟩
    · exact (ih (hkept.symm.trans hstate)).concat
    · rcases hstep.of_handshaking hhandshaking with ⟨handshake, hid, hdecode, heffect⟩ | ⟨rfl, -⟩
      · rw [heffect.state] at hstate
        refine ⟨(s, frame), List.mem_append_right _ (List.mem_singleton_self _), ?_⟩
        cases hnext : handshake.nextState with
        | status =>
            rw [hnext] at hstate
            cases hstate
        | login => exact Or.inl ⟨hhandshaking, hid, handshake, hdecode, hnext⟩
        | transfer => exact Or.inr ⟨hhandshaking, hid, handshake, hdecode, hnext⟩
      · exact (ih hstate).concat
    · exact (ih hlogin).concat

/-- Outside a login the codec is uncompressed. -/
theorem Run.uncompressed (h : Run env config history live s) :
    s.state.current = .handshaking ∨ s.state.current = .status → s.codec.compressionThreshold = none := by
  refine Run.step_induction (P := fun _ _ s => s.state.current = .handshaking ∨ s.state.current = .status →
    s.codec.compressionThreshold = none) ?_ ?_ h
  · intro _
    rfl
  · intro history s frame live s' _ ih hstep hstate
    have hbefore : s.state.current = .handshaking ∨ s.state.current = .status := by
      rcases hstep.current with hkept | ⟨hhandshaking, -⟩ | ⟨-, hconfiguration⟩
      · rwa [hkept] at hstate
      · exact Or.inl hhandshaking
      · rw [hconfiguration] at hstate
        rcases hstate with hstate | hstate <;> cases hstate
    rcases hstep.handled.loginStart_or_quiet with ⟨start, entries, hlogin, -⟩ | ⟨entries, -, -, hthreshold⟩
    · rw [hlogin] at hbefore
      rcases hbefore with hbefore | hbefore <;> cases hbefore
    · exact hthreshold.trans (ih hbefore)

theorem Run.inStep (henv : ShortLogins env) (h : Run env config history live s) :
    InStep none s.sent ∧ (live = true → s.codec.compressionThreshold = s.sent.foldl settingAfter none) := by
  refine Run.step_induction (P := fun _ live s => InStep none s.sent ∧
    (live = true → s.codec.compressionThreshold = s.sent.foldl settingAfter none)) ?_ ?_ h
  · exact ⟨trivial, fun _ => rfl⟩
  · intro history s frame live s' _ ih hstep
    obtain ⟨hsent, hcodec⟩ := ih
    obtain ⟨entries, heq, hentries, hlive, -⟩ := hstep.answer henv
    rw [hcodec rfl] at hentries hlive
    rw [heq, List.foldl_append]
    exact ⟨inStep_append.mpr ⟨hsent, hentries⟩, hlive⟩

/-- What every packet of a run is: its frame is within the size limit, and it announces compression only if
    a login was asked for. -/
structure Legible (env : Env) (history : List (Connection × RawPacket)) (e : Emitted) : Prop where
  fits : ∀ p, e.packet.frame env.zlib e.threshold = .ok p → p.length ≤ maxPacketSize
  announced : e.isSetCompression = true → LoginAsked env history

theorem Clientbound.frame_ok {z : Zlib} {threshold : Option Int32} {packet : Clientbound} {p : Bytes}
    (h : packet.frame z threshold = .ok p) :
    packet.bytes.length ≤ maxPacketSize ∧ payload z threshold packet.bytes = .ok p := by
  unfold Clientbound.frame at h
  split_ifs at h with hmax
  refine ⟨Nat.not_lt.mp hmax, ?_⟩
  cases hpayload : payload z threshold packet.bytes with
  | error reason =>
      rw [hpayload] at h
      cases h
  | ok p' =>
      rw [hpayload] at h
      obtain rfl := Except.ok.inj h
      rfl

/-- A short packet has a short frame, in each of the three layouts. -/
theorem fitsFrame_of_short (henv : ShortLogins env) {packet : Bytes} (hshort : packet.length ≤ 600)
    (threshold : Option Int32) : FitsFrame env.zlib threshold packet := by
  have hmax : 605 ≤ maxPacketSize := by decide
  unfold FitsFrame
  cases threshold with
  | none => exact le_trans hshort (by decide)
  | some threshold =>
      dsimp only
      split_ifs
      · omega
      · intro deflated hdeflate
        have hlen := henv.deflated packet deflated hshort hdeflate
        have hvarint := length_varintBytes_le (Int32.ofNat packet.length)
        rw [length_varintBytes, maxVarintLen] at hvarint
        omega

theorem legible_of_belongs (henv : ShortLogins env) (hrun : Run env config history true s) {e : Emitted}
    (h : Belongs s e) : Legible env history e := by
  rcases h with ⟨hstate, hthreshold, hnot⟩ | ⟨hstate, hshort⟩
  · refine ⟨fun p hframe => ?_, fun hset => absurd hset (by simp [hnot])⟩
    -- uncompressed, so the frame is the packet
    obtain ⟨hmax, hpayload⟩ := Clientbound.frame_ok hframe
    rw [hthreshold, hrun.uncompressed (Or.inr hstate)] at hpayload
    obtain rfl := Except.ok.inj hpayload
    exact hmax
  · refine ⟨fun p hframe => ?_, fun _ => hrun.loginAsked hstate⟩
    exact (fitsFrame_iff (Clientbound.frame_ok hframe).2).mp (fitsFrame_of_short henv hshort _)

theorem Run.legible (henv : ShortLogins env) (h : Run env config history live s) :
    ∀ e ∈ s.sent, Legible env history e := by
  refine Run.step_induction (P := fun history _ s => ∀ e ∈ s.sent, Legible env history e) ?_ ?_ h
  · intro e he
    cases he
  · intro history s frame live s' hrun ih hstep e he
    have hmore : Legible env history e → Legible env (history ++ [(s, frame)]) e := by
      intro hlegible
      exact ⟨hlegible.fits, fun hset => (hlegible.announced hset).concat⟩
    obtain ⟨entries, heq, -, -, hbelongs⟩ := hstep.answer henv
    rw [heq] at he
    rcases List.mem_append.mp he with he | he
    · exact hmore (ih e he)
    · exact hmore (legible_of_belongs henv hrun (hbelongs e he))

/-! ## The client -/

/-- What a client does after a packet: ID 3 is a `SetCompression` if it has asked for a login, and then the
    client sets the threshold that the packet carries. -/
def watch (t : Target) (login : Bool) (packets : List RawPacket) : Option Int32 :=
  match packets.getLast? with
  | none => none
  | some packet =>
    if login = true ∧ packet.id = Packet.id SetCompression then
      match (Packet.decode t packet.body : Outcome ProtocolError Bytes SetCompression) with
      | .ok announced [] => some announced.threshold
      | _ => none
    else none

/-- The client recognises the packets that announce compression, and no others. -/
theorem watch_concat (t : Target) {login : Bool} (packets : List RawPacket) {e : Emitted}
    (hlogin : e.isSetCompression = true → login = true) :
    watch t login (packets ++ [e.packet.raw])
      = match e.packet with
        | .setCompression packet => some packet.threshold
        | _ => none := by
  have hother : e.packet.raw.id ≠ Packet.id SetCompression →
      watch t login (packets ++ [e.packet.raw]) = none := by
    intro hid
    simp [watch, hid]
  obtain ⟨packet, threshold⟩ := e
  cases packet with
  | statusResponse packet => exact hother (by decide : Packet.id StatusResponse ≠ Packet.id SetCompression)
  | pongResponse packet => exact hother (by decide : Packet.id PongResponse ≠ Packet.id SetCompression)
  | loginDisconnect packet => exact hother (by decide : Packet.id LoginDisconnect ≠ Packet.id SetCompression)
  | loginSuccess packet => exact hother (by decide : Packet.id LoginSuccess ≠ Packet.id SetCompression)
  | setCompression packet =>
      have hread := readVarint_append t packet.threshold []
      rw [List.append_nil] at hread
      have hdecode : (Packet.decode t (varintBytes packet.threshold) : Outcome ProtocolError Bytes SetCompression)
          = .ok packet [] := by
        show (readVarint t >>= fun threshold => pure { threshold } : Exec ProtocolError Bytes SetCompression) _ = _
        rw [Exec.bind_apply, hread]
        rfl
      simp [watch, hlogin rfl, Clientbound.raw, PlainPacket.body, hdecode]

/-- By induction on the packets. The client's codec is in step with them, and its buffer holds their frames. -/
theorem drain_frames {z : Zlib} (hz : z.Inverts) (t : Target) {login : Bool} {sent : List Emitted}
    (hfits : ∀ e ∈ sent, ∀ p, e.packet.frame z e.threshold = .ok p → p.length ≤ maxPacketSize)
    (hlogin : ∀ e ∈ sent, e.isSetCompression = true → login = true) (receiver : Receiver)
    (hstep : InStep receiver.codec.compressionThreshold sent) (hframes : FramesOf z sent receiver.buffer) :
    ∃ codec, drain z t (watch t login) receiver
      = .ok () ⟨codec, receiver.packets ++ sent.map fun e => e.packet.raw, []⟩ := by
  induction sent generalizing receiver with
  | nil =>
      have hempty : receiver.buffer = [] := hframes
      refine ⟨receiver.codec, ?_⟩
      rw [drain_of_incomplete z t _ (by rw [hempty]; rfl), List.map_nil, List.append_nil, ← hempty]
  | cons e sent ih =>
      obtain ⟨hthreshold, hstep⟩ := hstep
      obtain ⟨p, rest, hframe, hbuffer, hframes⟩ := hframes
      obtain ⟨hmax, hpayload⟩ := Clientbound.frame_ok hframe
      rw [hthreshold] at hpayload
      have hdecode : receiver.codec.decode z t receiver.buffer = .ok (some e.packet.raw) rest := by
        rw [hbuffer]
        exact decode_frameBytes hz t receiver.codec hmax hpayload (hfits e List.mem_cons_self p hframe) rest
      have hpull : pull z t (watch t login) receiver
          = .ok (.inl ()) (receiver.accept (watch t login) e.packet.raw rest) := by
        simp only [pull, hdecode]
      have hcodec : (receiver.accept (watch t login) e.packet.raw rest).codec.compressionThreshold
          = settingAfter receiver.codec.compressionThreshold e := by
        simp only [Receiver.accept, watch_concat t receiver.packets (hlogin e List.mem_cons_self), settingAfter]
        cases e.packet <;> rfl
      rw [drain_eq, hpull]
      obtain ⟨codec, hrest⟩ := ih (fun e' he' => hfits e' (List.mem_cons_of_mem _ he'))
        (fun e' he' => hlogin e' (List.mem_cons_of_mem _ he'))
        (receiver.accept (watch t login) e.packet.raw rest) (hcodec ▸ hstep) hframes
      refine ⟨codec, ?_⟩
      rw [List.map_cons, ← List.singleton_append, ← List.append_assoc]
      exact hrest

/-- **The output stays readable.** Whatever the client has sent, and however the run went on, a client that
    starts uncompressed and switches where compression is announced reads exactly the packets that the server
    has sent, without an error and with no bytes left over. -/
theorem output_readable (henv : ShortLogins env) (h : Run env config history live s) (t : Target) (login : Bool)
    (hlogin : LoginAsked env history → login = true) :
    ∃ codec, drain env.zlib t (watch t login) ((Receiver.new .new).append s.written)
      = .ok () ⟨codec, s.sent.map fun e => e.packet.raw, []⟩ := by
  have hlegible := h.legible henv
  exact drain_frames henv.inverts t (fun e he => (hlegible e he).fits)
    (fun e he hset => hlogin ((hlegible e he).announced hset)) ((Receiver.new .new).append s.written)
    (h.inStep henv).1 h.framesOf

theorem storedEnv_shortLogins : ShortLogins storedEnv := by
  refine ⟨Zlib.stored_inverts, ?_, ?_⟩
  · intro input output hshort hdeflate
    have hmax : 616 ≤ maxPacketSize := by decide
    obtain rfl := Except.ok.inj hdeflate
    simp only [List.length_append, List.length_reverse, length_wordBytes, Word.size, List.length_cons,
      List.length_nil]
    omega
  · intro reason hreason
    obtain rfl := Except.ok.inj hreason
    decide +kernel

/-- A login that announces compression is read as two packets. -/
theorem output_readable_steve :
    ∃ s codec, Connection.handle storedEnv steveStart inLogin = .ok .proceed s ∧ s.sent.length = 2 ∧
      drain storedEnv.zlib .bits64 (watch .bits64 true) ((Receiver.new .new).append s.written)
        = .ok () ⟨codec, s.sent.map fun e => e.packet.raw, []⟩ := by
  have hlogin : Run storedEnv .default [(.new .default, loginHandshake)] true inLogin := .proceed .fresh rfl
  have hcarries : Carries storedEnv steveStart ⟨"Steve", 0⟩ := ⟨rfl, by decide +kernel⟩
  have hname : NameValid "Steve" := validateUsername_iff.mp (by decide +kernel)
  have hreliable : Reliable storedEnv := ⟨fun _ => rfl, fun _ => ⟨_, rfl⟩⟩
  obtain ⟨s, hhandle, hsent⟩ := handle_loginStart hreliable (rfl : inLogin.state.current = .login) hcarries hname
  obtain ⟨codec, hdrain⟩ := output_readable storedEnv_shortLogins (hlogin.proceed hhandle) .bits64 true
    fun _ => rfl
  refine ⟨s, codec, hhandle, ?_, hdrain⟩
  rw [hsent]
  rfl

end Pyrite.Net
