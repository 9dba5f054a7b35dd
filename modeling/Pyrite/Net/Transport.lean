import Pyrite.Net.Noise
import Pyrite.Protocol.Framed

set_option autoImplicit false

/-! # A connection over its transport

`Connection::run` down to the bytes: the transport hands over chunks of any size, and in the end closes,
fails, or stays silent for longer than the read timeout. Between the two stands the read side of `Framed`,
which `Protocol.Endpoint` describes.

The cuts between the chunks do not matter (`run_fragmentation`); every byte belongs to exactly one frame that
was handled once, in order, or is unread (`input_accounted`); and what is logged at the end tells who ended
the connection (`log_level_exact`). -/

namespace Pyrite.Net

open Wire Protocol

variable {env : Env} {config : ServerConfig}

/-! ## The loop of `run` -/

/-- A connection that is in `framed.next()`, or what its `run` ended with. -/
abbrev Service : Type := Framed Connection (Outcome NetError Connection Unit)

/-- What the loop makes of a handled frame. -/
def Service.handled : Outcome NetError Connection Flow → Service
  | .ok .proceed s => .waiting s
  | .ok .close s => .ended (.ok () s)
  | .error e s => .ended (.error e s)
  | .panic => .ended .panic
  | .diverge => .ended .diverge

/-- The loop waits again only where the handler says so. -/
theorem Service.handled_eq_waiting {outcome : Outcome NetError Connection Flow} {s : Connection} :
    Service.handled outcome = .waiting s ↔ outcome = .ok .proceed s := by
  cases outcome with
  | ok flow s' => cases flow <;> simp [Service.handled]
  | _ => simp [Service.handled]

/-- The server's end of a connection. -/
def serverEnd (env : Env) : Endpoint Connection (Outcome NetError Connection Unit) where
  codec s := s.codec
  onPacket s frame := Service.handled (Connection.handle env frame s)
  onError s error := .error (.protocol error) s
  onPanic := .panic

/-- What drives a connection. -/
abbrev serverReactor (env : Env) : Reactor Service UInt8 := (serverEnd env).reactor env.zlib env.target

/-- A fresh connection after it was handed `chunks`, with the bytes it has not used. -/
def Connection.reads (env : Env) (config : ServerConfig) (chunks : List Bytes) : Service × Bytes :=
  (serverReactor env).feedAll (.waiting (.new config), []) chunks

/-- What the wait for more bytes ends with. -/
inductive Ending where
  /-- The peer has closed its side. -/
  | eof
  /-- Reading has failed. -/
  | failed (reason : String)
  /-- The read timeout has elapsed. -/
  | elapsed
  deriving DecidableEq, Repr

/-- What `run` returns when the wait ends: an unfinished frame is an error at the end of the stream. -/
def Connection.finish (ending : Ending) : Service × Bytes → Outcome NetError Connection Unit
  | (.ended outcome, _) => outcome
  | (.waiting s, buffer) =>
    match ending with
    | .eof => if buffer.isEmpty then .ok () s else .error (.protocol (.io "bytes remaining on stream")) s
    | .failed reason => .error (.protocol (.io reason)) s
    | .elapsed => .error .timeout s

/-- `Connection::run`, down to the bytes. -/
def Connection.runOver (env : Env) (config : ServerConfig) (chunks : List Bytes) (ending : Ending) :
    Outcome NetError Connection Unit :=
  finish ending (reads env config chunks)

/-- The levels that `run_connection` logs at. -/
inductive Level where
  | debug
  | warn
  deriving DecidableEq, Repr

/-- The level that `run_connection` logs the end of a connection at, if it does. The line that
    `Connection::run` itself writes for a clean end of the stream, at `debug`, is left out. -/
def logLevel : Outcome NetError Connection Unit → Option Level
  | .error e _ => some (if e.isTransportNoise then .debug else .warn)
  | _ => none

/-! ## Fragmentation -/

theorem reads_eq (chunks : List Bytes) :
    Connection.reads env config chunks
      = (serverReactor env).settle (.waiting (.new config)) chunks.flatten := by
  have hstart := Endpoint.settle_nil (z := env.zlib) (t := env.target) (e := serverEnd env)
    (.waiting (.new config))
  rw [Connection.reads, ← hstart, Reactor.feedAll_eq_feed, List.nil_append]

/-- **Fragmentation.** How the transport cuts the stream changes neither the answers nor the result, and what
    arrives after a connection has ended changes nothing either. -/
theorem run_fragmentation (env : Env) (config : ServerConfig) (chunks : List Bytes) (ending : Ending) :
    (∀ chunks', chunks'.flatten = chunks.flatten →
      Connection.runOver env config chunks' ending = Connection.runOver env config chunks ending) ∧
    ∀ outcome, (Connection.reads env config chunks).1 = .ended outcome → ∀ more ending',
      Connection.runOver env config (chunks ++ more) ending' = outcome := by
  constructor
  · intro chunks' hflatten
    rw [Connection.runOver, Connection.runOver, reads_eq, reads_eq, hflatten]
  · intro outcome hended more ending'
    rw [reads_eq] at hended
    rw [Connection.runOver, reads_eq, List.flatten_append, Reactor.settle_append, Reactor.feed, hended,
      Endpoint.settle_ended]
    rfl

/-! ## Where the bytes go -/

/-- `Took env config bytes history f`: the frames of `history` are all of `bytes`, one after the other, each
    decoded by the codec in force and handled in the state it is paired with; `f` is what came of it. The
    bytes of a frame that could not be decoded are at the end. -/
inductive Took (env : Env) (config : ServerConfig) :
    Bytes → List (Connection × RawPacket) → Service → Prop where
  | fresh : Took env config [] [] (.waiting (.new config))
  | frame {bytes : Bytes} {history : List (Connection × RawPacket)} {s : Connection} {frame : RawPacket}
      (segment : Bytes) (h : Took env config bytes history (.waiting s))
      (hdecode : s.codec.decode env.zlib env.target segment = .ok (some frame) []) :
      Took env config (bytes ++ segment) (history ++ [(s, frame)])
        (Service.handled (Connection.handle env frame s))
  | invalid {bytes : Bytes} {history : List (Connection × RawPacket)} {s : Connection} {e : ProtocolError}
      (segment rest : Bytes) (h : Took env config bytes history (.waiting s))
      (hdecode : s.codec.decode env.zlib env.target (segment ++ rest) = .error e rest) :
      Took env config (bytes ++ segment) history (.ended (.error (.protocol e) s))

/-- One call of the decoder takes bytes off the front, and everything that is taken is accounted for. -/
theorem Took.next {bytes buffer rest : Bytes} {history : List (Connection × RawPacket)} {f f' : Service}
    (h : Took env config bytes history f)
    (hnext : (serverReactor env).next f buffer = some (f', rest)) :
    ∃ segment history', buffer = segment ++ rest ∧ Took env config (bytes ++ segment) history' f' := by
  obtain ⟨s, rfl, ⟨e, hdecode, rfl, -⟩ | ⟨packet, hdecode, rfl, -⟩, -⟩ :=
    (serverEnd env).next_eq_some env.zlib env.target hnext
  · obtain ⟨segment, rfl⟩ := decode_error_suffix hdecode
    exact ⟨segment, history, rfl, h.invalid segment rest hdecode⟩
  · obtain ⟨segment, rfl, hsegment⟩ := decode_segment hdecode
    exact ⟨segment, _, rfl, h.frame segment hsegment⟩

theorem Took.settle {bytes : Bytes} {history : List (Connection × RawPacket)} {f : Service}
    (h : Took env config bytes history f) (buffer : Bytes) :
    ∃ segment history', buffer = segment ++ ((serverReactor env).settle f buffer).2 ∧
      Took env config (bytes ++ segment) history' ((serverReactor env).settle f buffer).1 := by
  refine Reactor.settle_keeps (P := fun f rest => ∃ segment history', buffer = segment ++ rest ∧
    Took env config (bytes ++ segment) history' f) ?_ ⟨[], history, rfl, by rwa [List.append_nil]⟩
  intro f rest f' rest' hP hnext
  obtain ⟨segment, history', rfl, htook⟩ := hP
  obtain ⟨segment', history'', rfl, htook'⟩ := htook.next hnext
  exact ⟨segment ++ segment', history'', (List.append_assoc _ _ _).symm, by rwa [← List.append_assoc]⟩

/-- A connection over its transport does what a run of its frames does. -/
theorem Took.run {bytes : Bytes} {history : List (Connection × RawPacket)} {f : Service}
    (h : Took env config bytes history f) :
    (∀ s, f = .waiting s → Run env config history true s) ∧
      ∀ outcome, f = .ended outcome → outcome.Satisfies (fun _ s => Run env config history false s)
        (fun _ s => ∃ live, Run env config history live s) := by
  induction h with
  | fresh =>
      refine ⟨fun s heq => ?_, fun outcome heq => (nomatch heq)⟩
      obtain rfl := Framed.waiting.inj heq
      exact .fresh
  | @frame bytes history s frame segment _ _ ih =>
      have hrun := ih.1 s rfl
      have hspec := handle_spec env frame s
      cases hhandle : Connection.handle env frame s with
      | ok flow s' =>
          cases flow with
          | proceed =>
              refine ⟨fun s'' heq => ?_, fun outcome heq => (nomatch heq)⟩
              obtain rfl := Framed.waiting.inj heq
              exact hrun.proceed hhandle
          | close =>
              refine ⟨fun s'' heq => (nomatch heq), fun outcome heq => ?_⟩
              obtain rfl := Framed.ended.inj heq
              exact hrun.close hhandle
      | error e s' =>
          refine ⟨fun s'' heq => (nomatch heq), fun outcome heq => ?_⟩
          obtain rfl := Framed.ended.inj heq
          exact ⟨false, hrun.fail hhandle⟩
      | panic =>
          rw [hhandle] at hspec
          exact hspec.elim
      | diverge =>
          rw [hhandle] at hspec
          exact hspec.elim
  | @invalid bytes history s e segment rest _ _ ih =>
      refine ⟨fun s' heq => (nomatch heq), fun outcome heq => ?_⟩
      obtain rfl := Framed.ended.inj heq
      exact ⟨true, ih.1 s rfl⟩

/-- **Every byte is accounted for.** Whatever arrives and however it is cut, the bytes are the frames that were
    handled, in order and each handled once, followed by what is unread; the connection is where a run of
    these frames takes it, and has not panicked. While it waits for more, what is unread is less than one
    frame, so some two megabytes at most. What it holds while a flush within a handler has to wait is in
    `Pyrite.Net.Suspended`. -/
theorem input_accounted (env : Env) (config : ServerConfig) (chunks : List Bytes) :
    ∃ bytes history,
      chunks.flatten = bytes ++ (Connection.reads env config chunks).2 ∧
      Took env config bytes history (Connection.reads env config chunks).1 ∧
      (∀ s, (Connection.reads env config chunks).1 = .waiting s → Run env config history true s ∧
        front (Connection.reads env config chunks).2 = .incomplete ∧
        (Connection.reads env config chunks).2.length < maxVarintLen + maxPacketSize) ∧
      ∀ outcome, (Connection.reads env config chunks).1 = .ended outcome →
        outcome.Satisfies (fun _ s => Run env config history false s)
          (fun _ s => ∃ live, Run env config history live s) := by
  obtain ⟨bytes, history, hflatten, htook⟩ := (Took.fresh : Took env config [] [] _).settle chunks.flatten
  rw [← reads_eq, List.nil_append] at htook
  rw [← reads_eq] at hflatten
  refine ⟨bytes, history, hflatten, htook, fun s hwaiting => ?_, htook.run.2⟩
  have hnext := Reactor.next_settle (m := serverReactor env) (.waiting (.new config)) chunks.flatten
  rw [← reads_eq, hwaiting] at hnext
  have hincomplete := ((serverEnd env).next_eq_none env.zlib env.target).mp hnext
  exact ⟨htook.run.1 s hwaiting, hincomplete, length_lt_of_incomplete hincomplete⟩

/-! ## Who ended the connection -/

/-- The transport has taken everything that was written. -/
def Delivered (env : Env) (s : Connection) : Prop := s.written = [] ∨ env.flush s.written = .ok ()

/-- A handler that goes on has delivered what it wrote; one that fails, fails with noise exactly if the last
    of it was not delivered. -/
theorem delivery_discipline (hz : Deflates env.zlib) :
    Discipline env (fun s s' => Delivered env s → Delivered env s')
      (fun s e s' => Delivered env s → (e.isTransportNoise = true ↔ ¬ Delivered env s')) where
  silent hwritten _ := by
    unfold Delivered
    rw [hwritten]
    exact id
  violation hwritten _ hnoise := by
    unfold Delivered
    rw [hwritten, hnoise]
    intro hdelivered
    exact iff_of_false (by simp) (not_not_intro hdelivered)
  trans h₁ h₂ h := h₂ (h₁ h)
  fails h₁ h₂ h := h₂ (h₁ h)
  send packet s := by
    obtain ⟨codec, -, hcases⟩ := send_cases env packet s
    rcases hcases with ⟨p, -, hflush, hsend⟩ | ⟨p, reason, -, hflush, hsend⟩ | ⟨e, hframe, hsend⟩
    · rw [hsend]
      intro _
      exact Or.inr hflush
    · rw [hsend]
      intro _
      refine iff_of_true rfl ?_
      rintro (hnil | hok)
      · have hpos := length_frameBytes_pos p
        have hlength := congrArg List.length hnil
        simp only [Connection.wrote, List.length_append, List.length_nil] at hlength
        omega
      · rw [show (s.wrote codec packet p).written = s.written ++ frameBytes p from rfl, hflush] at hok
        cases hok
    · rw [hsend]
      intro hdelivered
      rw [isTransportNoise_protocol, Clientbound.frame_error hz hframe]
      exact iff_of_false (by simp) (not_not_intro hdelivered)

/-- What is known of a connection at every point: it waits only if everything was delivered, and its error
    tells whether everything was. -/
def Service.Honest (env : Env) : Service → Prop
  | .waiting s => Delivered env s
  | .ended outcome => outcome.Satisfies (fun _ _ => True)
      (fun e s => e.isTransportNoise = true ↔ ¬ Delivered env s)

theorem Service.Honest.next (hz : Deflates env.zlib) {f f' : Service} {buffer rest : Bytes}
    (h : Service.Honest env f) (hnext : (serverReactor env).next f buffer = some (f', rest)) :
    Service.Honest env f' := by
  obtain ⟨s, rfl, ⟨e, hdecode, rfl, -⟩ | ⟨packet, hdecode, rfl, -⟩, -⟩ :=
    (serverEnd env).next_eq_some env.zlib env.target hnext
  · -- the bytes were refused, which is a violation
    have hviolates := decode_violates env.zlib env.target s.codec buffer
    have hdecode : s.codec.decode env.zlib env.target buffer = .error e rest := hdecode
    rw [hdecode] at hviolates
    show (NetError.protocol e).isTransportNoise = true ↔ ¬ Delivered env s
    rw [isTransportNoise_protocol, show e.isIo = false from hviolates]
    exact iff_of_false (by simp) (not_not_intro h)
  · have hkeeps := (delivery_discipline hz).handle packet s
    have hspec := handle_spec env packet s
    show Service.Honest env (Service.handled (Connection.handle env packet s))
    cases hhandle : Connection.handle env packet s with
    | ok flow s' =>
        rw [hhandle] at hkeeps
        cases flow with
        | proceed => exact hkeeps h
        | close => trivial
    | error e s' =>
        rw [hhandle] at hkeeps
        exact hkeeps h
    | panic =>
        rw [hhandle] at hspec
        exact hspec.elim
    | diverge =>
        rw [hhandle] at hspec
        exact hspec.elim

theorem reads_honest (hz : Deflates env.zlib) (config : ServerConfig) (chunks : List Bytes) :
    Service.Honest env (Connection.reads env config chunks).1 := by
  rw [reads_eq]
  exact Reactor.settle_keeps (P := fun f _ => Service.Honest env f)
    (fun f buffer f' rest h hnext => h.next hz hnext) (Or.inl rfl)

/-- **The log tells who ended a connection.** However the bytes are cut and whatever they are: while the
    server waits for a frame, `run_connection` logs nothing of an end of the stream if no frame was begun, and
    every other end as noise; and an error that the server found itself is a warning if everything that was written
    has been delivered, and noise if the last of it could not be. So hanging up, resetting or staying silent
    never causes a warning. -/
theorem log_level_exact (hz : Deflates env.zlib) (config : ServerConfig) (chunks : List Bytes) (ending : Ending) :
    (∀ s, (Connection.reads env config chunks).1 = .waiting s →
      logLevel (Connection.runOver env config chunks ending)
        = if ending = .eof ∧ (Connection.reads env config chunks).2 = [] then none else some .debug) ∧
    (∀ s, (Connection.reads env config chunks).1 = .ended (.ok () s) →
      logLevel (Connection.runOver env config chunks ending) = none) ∧
    (∀ e s, (Connection.reads env config chunks).1 = .ended (.error e s) →
      (logLevel (Connection.runOver env config chunks ending) = some .warn ↔ Delivered env s) ∧
      (logLevel (Connection.runOver env config chunks ending) = some .debug ↔ ¬ Delivered env s)) := by
  have hhonest := reads_honest hz config chunks
  unfold Connection.runOver
  generalize Connection.reads env config chunks = p at hhonest ⊢
  obtain ⟨f, buffer⟩ := p
  refine ⟨?_, ?_, ?_⟩
  · rintro s rfl
    cases ending with
    | eof => cases buffer <;> simp [Connection.finish, logLevel, NetError.isTransportNoise]
    | failed reason => simp [Connection.finish, logLevel, NetError.isTransportNoise]
    | elapsed => simp [Connection.finish, logLevel, NetError.isTransportNoise]
  · rintro s rfl
    rfl
  · rintro e s rfl
    have hnoise : e.isTransportNoise = true ↔ ¬ Delivered env s := hhonest
    simp only [Connection.finish, logLevel, Option.some.injEq]
    rcases Bool.eq_false_or_eq_true e.isTransportNoise with htrue | hfalse
    · simp [htrue, hnoise.mp htrue]
    · have hdelivered : Delivered env s := by
        by_contra hnot
        rw [hnoise.mpr hnot] at hfalse
        cases hfalse
      simp [hfalse, hdelivered]

/-- A client that hangs up within a length prefix is not worth a warning. -/
theorem log_level_exact_truncated :
    (Connection.reads storedEnv .default [[133]]).1 = .waiting (.new .default) ∧
      logLevel (Connection.runOver storedEnv .default [[133]] .eof) = some .debug := by
  have hdeflates : Deflates storedEnv.zlib := fun _ => ⟨_, rfl⟩
  have hwaiting : (Connection.reads storedEnv .default [[133]]).1 = .waiting (.new .default) := rfl
  refine ⟨hwaiting, ?_⟩
  rw [(log_level_exact hdeflates .default [[133]] .eof).1 _ hwaiting]
  rfl

end Pyrite.Net
