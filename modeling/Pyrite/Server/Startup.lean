import Pyrite.Net.Hub
import Pyrite.Net.Language

set_option autoImplicit false

/-! # Starting the server

`crates/server/src/main.rs`: the command line, the check of the address, and what `serve` is started with.
The ranges that the argument parser enforces are fields of `Args`. What binding the listener gives is a
parameter. Parsing, logging and waiting for Ctrl-C are left out; that the signal has come is an event of the
accept loop. -/

namespace Pyrite.Startup

open Wire Protocol Net

/-! ## The command line -/

/-- `std::net::IpAddr` -/
inductive IpAddr where
  | v4 (a b c d : UInt8)
  | v6 (segments : Vector UInt16 8)
  deriving DecidableEq

/-- `IpAddr::is_loopback`: 127.0.0.0/8 or `::1`. An IPv4 address that is mapped into IPv6 is not. -/
def IpAddr.isLoopback : IpAddr → Bool
  | .v4 a _ _ _ => a == 127
  | .v6 segments => segments == #v[0, 0, 0, 0, 0, 0, 0, 1]

structure SocketAddr where
  ip : IpAddr
  port : UInt16
  deriving DecidableEq

/-- Command line options, as the parser accepts them. The two durations are left out, and the times they set
    are events. -/
structure Args (t : Target) where
  bind : SocketAddr := ⟨.v4 0 0 0 0, 25565⟩
  motd : String := "A Pyrite Server"
  maxPlayers : Int32 := 20
  maxConnections : UInt64 := 1000
  compressionThreshold : Int32 := 256
  insecureOfflineMode : Bool := false
  /-- `range(1..=Semaphore::MAX_PERMITS as u64)` -/
  maxConnections_range : 1 ≤ maxConnections.toNat ∧ maxConnections.toNat ≤ Net.Server.maxPermits t

/-- Refuses a non-loopback bind while the server can only run in offline mode. How an address is written is a
    parameter. -/
def checkBindSafety (display : SocketAddr → String) (addr : SocketAddr) (insecureOfflineMode : Bool) :
    Except String Unit :=
  if insecureOfflineMode || addr.ip.isLoopback then .ok ()
  else .error ("refusing to bind " ++ display addr ++ ": this server runs in offline mode, so any " ++
    "client could join under any username, including one holding " ++
    "operator rights. Bind a loopback address such as 127.0.0.1:" ++ toString addr.port.toNat ++ " " ++
    "instead, or pass --insecure-offline-mode if you genuinely intend " ++
    "to expose it.")

/-- How `main` ends before it calls `serve`. -/
inductive StartError where
  /-- The message is logged, and the process exits. -/
  | refused (message : String)
  /-- The listener cannot be bound. -/
  | io (reason : String)
  deriving DecidableEq, Repr

namespace Args

variable {t : Target} (args : Args t)

def config : ServerConfig where
  motd := .new args.motd
  maxPlayers := args.maxPlayers
  -- `(threshold >= 0).then_some(threshold)`
  compressionThreshold := if 0 ≤ args.compressionThreshold.toInt then some args.compressionThreshold else none

/-- `args.max_connections as usize` drops the bits that do not fit. -/
def options : ServeOptions where
  maxConnections := args.maxConnections.toNat % 2 ^ t.bits

/-- `main`, up to the call of `serve`. -/
def startup (display : SocketAddr → String) (bindListener : SocketAddr → Except String Unit) :
    Except StartError (ServerConfig × ServeOptions) := do
  (checkBindSafety display args.bind args.insecureOfflineMode).mapError .refused
  (bindListener args.bind).mapError .io
  pure (args.config, args.options)

end Args

/-! ## What a server is started with -/

variable {t : Target} {args : Args t}

/-- The cast loses nothing. -/
theorem options_maxConnections (args : Args t) : args.options.maxConnections = args.maxConnections.toNat := by
  have hrange := args.maxConnections_range.2
  have hfits : Net.Server.maxPermits t < 2 ^ t.bits := by cases t <;> decide
  exact Nat.mod_eq_of_lt (lt_of_le_of_lt hrange hfits)

theorem checkBindSafety_eq_ok (display : SocketAddr → String) {addr : SocketAddr} {insecureOfflineMode : Bool} :
    checkBindSafety display addr insecureOfflineMode = .ok () ↔
      insecureOfflineMode = true ∨ addr.ip.isLoopback = true := by
  rw [checkBindSafety, ← Bool.or_eq_true]
  by_cases hsafe : (insecureOfflineMode || addr.ip.isLoopback) = true
  · rw [if_pos hsafe]
    exact iff_of_true rfl hsafe
  · rw [if_neg hsafe]
    exact iff_of_false (by simp) hsafe

theorem startup_eq_ok {display : SocketAddr → String} {bindListener : SocketAddr → Except String Unit}
    {config : ServerConfig} {options : ServeOptions} :
    args.startup display bindListener = .ok (config, options) ↔
      (args.insecureOfflineMode = true ∨ args.bind.ip.isLoopback = true) ∧ bindListener args.bind = .ok () ∧
        config = args.config ∧ options = args.options := by
  rw [← checkBindSafety_eq_ok display]
  unfold Args.startup
  cases checkBindSafety display args.bind args.insecureOfflineMode with
  | error message => simp [Except.mapError, bind, Except.bind]
  | ok u =>
      cases bindListener args.bind with
      | error reason => simp [Except.mapError, bind, Except.bind]
      | ok u' => simp [Except.mapError, bind, Except.bind, pure, Except.pure, eq_comm]

/-- An address that is refused is not bound: whatever that would give, the end is the same. -/
theorem startup_refused (display : SocketAddr → String)
    (hpublic : ¬ (args.insecureOfflineMode = true ∨ args.bind.ip.isLoopback = true)) :
    ∃ message, ∀ bindListener, args.startup display bindListener = .error (.refused message) := by
  rw [← checkBindSafety_eq_ok display] at hpublic
  cases hcheck : checkBindSafety display args.bind args.insecureOfflineMode with
  | ok u => exact absurd hcheck hpublic
  | error message =>
      refine ⟨message, fun bindListener => ?_⟩
      rw [Args.startup, hcheck]
      rfl

/-- The threshold of a command line is never negative where there is one. -/
theorem config_threshold {args : Args t} {threshold : Int32}
    (h : args.config.compressionThreshold = some threshold) :
    threshold = args.compressionThreshold ∧ 0 ≤ threshold.toInt := by
  simp only [Args.config, Option.ite_none_right_eq_some, Option.some.injEq] at h
  obtain ⟨hle, rfl⟩ := h
  exact ⟨rfl, hle⟩

theorem start_of_args (args : Args t) :
    Net.Server.start t args.options = some ⟨args.maxConnections.toNat, [], 0, 0, .listening⟩ := by
  have hrange := args.maxConnections_range.2
  rw [Net.Server.start, options_maxConnections, if_neg (Nat.not_lt.mpr hrange)]

/-- The default address is not a loopback address, so a server that is told nothing does not listen. -/
example (display : SocketAddr → String) (bindListener : SocketAddr → Except String Unit) :
    ¬ ∃ config options, Args.startup (t := .bits64) { maxConnections_range := by decide } display bindListener
      = .ok (config, options) := by
  rintro ⟨config, options, h⟩
  have hsafe := (startup_eq_ok.mp h).1
  revert hsafe
  decide

/-! ## What it then does -/

variable {env : Env} {config : ServerConfig} {s : Connection}

/-- A connection announces the threshold that is configured, and no other. -/
theorem announces_configured {history : List (Connection × RawPacket)} {live : Bool}
    (h : Run env config history live s) : ∀ e ∈ s.sent, ∀ packet, e.packet = .setCompression packet →
      config.compressionThreshold = some packet.threshold := by
  refine Run.step_induction (P := fun _ _ s => ∀ e ∈ s.sent, ∀ packet, e.packet = .setCompression packet →
    config.compressionThreshold = some packet.threshold) (by simp [Connection.new]) ?_ h
  intro history s frame live s' hrun hsent hstep e he packet hpacket
  rcases hstep.handled.loginStart_or_quiet with ⟨start, entries, -, -, -, hentries, hmore⟩ | ⟨entries, hquiet, hmore, -⟩
  · rw [hmore] at he
    rcases List.mem_append.mp he with he | he
    · exact hsent e he packet hpacket
    -- only the first packet of a login announces anything
    have hmem := hentries.subset he
    simp only [loginEntries, compressionEntries, hrun.same_config] at hmem
    rcases List.mem_append.mp hmem with hmem | hmem
    · cases hthreshold : config.compressionThreshold with
      | none => simp [hthreshold] at hmem
      | some threshold =>
          simp only [hthreshold, List.mem_singleton] at hmem
          subst hmem
          simp only [Clientbound.setCompression.injEq] at hpacket
          rw [← hpacket]
    · rw [List.mem_singleton.mp hmem] at hpacket
      cases hpacket
  · rw [hmore] at he
    rcases List.mem_append.mp he with he | he
    · exact hsent e he packet hpacket
    have hno := hquiet e he
    rw [Emitted.Quiet, hpacket] at hno
    exact hno.elim

/-- The connection of a session. -/
def connectionOf : Service → Option Connection
  | .waiting s => some s
  | .ended (.ok () s) => some s
  | .ended (.error _ s) => some s
  | .ended _ => none

theorem run_of_outcome {outcome : Outcome NetError Connection Unit} {P : Connection → Prop}
    (h : outcome.Satisfies (fun _ s => P s) (fun _ s => P s)) (hs : connectionOf (.ended outcome) = some s) : P s := by
  cases outcome with
  | ok u s' =>
      obtain rfl := Option.some.inj hs
      exact h
  | error e s' =>
      obtain rfl := Option.some.inj hs
      exact h
  | panic => cases hs
  | diverge => cases hs

/-- The connection of every session has come to where it is by handling frames. -/
theorem session_run {options : ServeOptions} {events : List HubEvent} {hub : Hub}
    (h : Hub.run env config t options events = some hub) {session : Session} (hsession : session ∈ hub.sessions)
    (hs : connectionOf session.1 = some s) : ∃ history live, Run env config history live s := by
  obtain ⟨n, hn⟩ := List.mem_iff_getElem?.mp hsession
  have hreads : ∀ chunks s, connectionOf (Connection.reads env config chunks).1 = some s →
      ∃ history live, Run env config history live s := by
    intro chunks s hs
    obtain ⟨bytes, history, -, htook⟩ := (Took.fresh : Took env config [] [] _).settle chunks.flatten
    rw [← reads_eq] at htook
    obtain ⟨hwaiting, hended⟩ := htook.run
    cases hfirst : (Connection.reads env config chunks).1 with
    | waiting s' =>
        rw [hfirst] at hs
        obtain rfl := Option.some.inj hs
        exact ⟨history, true, hwaiting _ hfirst⟩
    | ended outcome =>
        rw [hfirst] at hs
        have hreached := (hended outcome hfirst).mono
          (fun _ s' hrun => (⟨history, false, hrun⟩ : ∃ history live, Run env config history live s'))
          fun _ s' hrun => (⟨history, hrun⟩ : ∃ history live, Run env config history live s')
        exact run_of_outcome hreached hs
  obtain ⟨chunks, ⟨-, rfl⟩ | ⟨ending, -, rfl⟩⟩ := Session.run_cases ((hub_ran h).alone n session hn)
  · exact hreads chunks s hs
  · refine hreads chunks s ?_
    rw [← hs]
    unfold Connection.runOver
    generalize Connection.reads env config chunks = p
    obtain ⟨f, buffer⟩ := p
    cases f with
    | ended outcome => rfl
    | waiting s' =>
        cases ending with
        | eof => cases buffer <;> rfl
        | failed reason => rfl
        | elapsed => rfl

/-- Nobody is refused before as many connections were accepted as there are permits. -/
theorem accepted_of_refused {options : ServeOptions} {events : List Event} {server : Net.Server}
    (h : serve t options events = some server) (hrefused : 0 < server.refused) :
    options.maxConnections ≤ server.accepted := by
  obtain ⟨server₀, hstart, hrun⟩ := Option.bind_eq_some_iff.mp h
  refine (runEvents_induction (P := fun events server => serve t options events = some server ∧
    (0 < server.refused → options.maxConnections ≤ server.accepted)) ?_ ?_ hrun).2 hrefused
  · simp only [Net.Server.start, Option.ite_none_left_eq_some, Option.some.injEq] at hstart
    obtain ⟨hle, rfl⟩ := hstart
    refine ⟨?_, fun hlt => absurd hlt (lt_irrefl 0)⟩
    rw [serve, Net.Server.start, if_neg hle]
    rfl
  · rintro events server e server' ⟨hserve, hkept⟩ hstep
    refine ⟨(serve_concat hserve).trans hstep, fun hlt => ?_⟩
    have hmoves := Net.Server.moves_of_step hstep
    cases hmoves with
    | refuse hphase hnone =>
        -- every permit is held by a task, and every task was accepted
        have hbalanced := serve_balanced hserve
        have hpermits := hbalanced.permits
        have htasks := hbalanced.tasks
        have hspawned := hbalanced.spawned
        have hserving := List.countP_le_length (p := (· == Task.serving)) (l := server.connections)
        simp only [Net.Server.held, hphase, hnone, reduceCtorEq, if_false] at hpermits ⊢
        omega
    | spawn hphase => exact Nat.le_succ_of_le (hkept hlt)
    | _ => exact hkept hlt

/-- **What a command line comes to.** `serve` is called exactly if the address is a loopback address or the flag is
    given, and the listener can be bound; an address that is neither is refused before it is bound. Once `serve`
    is called, whatever happens in whatever order: the semaphore is built and holds as many permits as were
    asked for, and one at least; no more connections than that are alive; nobody is refused before that many
    were accepted; and every connection announces the compression threshold that was asked for, which is then
    not negative, or none. -/
theorem startup_serves (args : Args t) (display : SocketAddr → String)
    (bindListener : SocketAddr → Except String Unit) (env : Env) :
    ((∃ config options, args.startup display bindListener = .ok (config, options)) ↔
      (args.insecureOfflineMode = true ∨ args.bind.ip.isLoopback = true) ∧ bindListener args.bind = .ok ()) ∧
    (¬ (args.insecureOfflineMode = true ∨ args.bind.ip.isLoopback = true) →
      ∃ message, ∀ bindListener', args.startup display bindListener' = .error (.refused message)) ∧
    ∀ config options, args.startup display bindListener = .ok (config, options) →
      (∃ hub, Hub.start t options = some hub ∧ hub.server.available = args.maxConnections.toNat ∧
        1 ≤ hub.server.available) ∧
      ∀ events hub, Hub.run env config t options events = some hub →
        hub.sessions.countP Session.live ≤ args.maxConnections.toNat ∧
        (0 < hub.server.refused → args.maxConnections.toNat ≤ hub.server.accepted) ∧
        ∀ session ∈ hub.sessions, ∀ s, connectionOf session.1 = some s → ∀ e ∈ s.sent, ∀ packet,
          e.packet = .setCompression packet →
            packet.threshold = args.compressionThreshold ∧ 0 ≤ args.compressionThreshold.toInt := by
  refine ⟨?_, startup_refused display, ?_⟩
  · constructor
    · rintro ⟨config, options, h⟩
      obtain ⟨hsafe, hbind, -⟩ := startup_eq_ok.mp h
      exact ⟨hsafe, hbind⟩
    · rintro ⟨hsafe, hbind⟩
      exact ⟨args.config, args.options, startup_eq_ok.mpr ⟨hsafe, hbind, rfl, rfl⟩⟩
  · intro config options h
    obtain ⟨-, -, rfl, rfl⟩ := startup_eq_ok.mp h
    refine ⟨?_, ?_⟩
    · refine ⟨⟨⟨args.maxConnections.toNat, [], 0, 0, .listening⟩, [], []⟩, ?_, rfl, args.maxConnections_range.1⟩
      rw [Hub.start, start_of_args]
      rfl
    · intro events hub hrun
      have hran := hub_ran hrun
      have hmax := options_maxConnections args
      refine ⟨?_, ?_, ?_⟩
      · rw [← hmax]
        exact hran.live_le
      · intro hrefused
        rw [← hmax]
        exact accepted_of_refused hran.serves hrefused
      · intro session hsession s hs e he packet hpacket
        obtain ⟨history, live, hreached⟩ := session_run hrun hsession hs
        obtain ⟨heq, hnonneg⟩ := config_threshold (announces_configured hreached e he packet hpacket)
        exact ⟨heq, heq ▸ hnonneg⟩

end Pyrite.Startup
