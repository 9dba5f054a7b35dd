import Pyrite.Net.Exchange
import Pyrite.Net.Hub

set_option autoImplicit false

/-! # Honest clients among others

The whole system: the accept loop, the connections it has admitted, and the peers. Some of the peers are clients
that log in. Of the others nothing is known: they send any bytes. The wait of any connection may end at any
moment, also that of an honest client: nothing keeps its network from failing, or from being slower than the
read timeout. All of this happens in any order. That the transport takes what the server writes is assumed.

As long as the wait of its connection has not ended, an honest client that was admitted can complete its login,
whatever the others have done, and without them (`honest_logins_complete`). -/

namespace Pyrite.Net

open Wire Protocol Relation

/-! ## Peers -/

/-- The end of an honest client, how much it has read, and how much of what it wrote the server has taken. -/
structure Peer where
  client : Framed Client Farewell × Bytes
  read : Nat
  taken : Nat

/-- The end of the client of a login. -/
abbrev loginReactor (env : Env) (t : Target) : Reactor (Framed Client Farewell) UInt8 :=
  (Client.clientEnd (Client.onLoginPacket env.zlib t)).reactor env.zlib t

def Peer.fresh (env : Env) (t : Target) (client : Client) : Peer :=
  ⟨(loginReactor env t).settle (.waiting client) [], 0, 0⟩

/-! ## The world -/

structure World where
  hub : Hub
  /-- For each connection its client, where this is an honest one. -/
  peers : Nat → Peer

namespace World

/-- The connection `n`, seen as the two ends that talk to each other. -/
def pair (w : World) (n : Nat) (session : Session) : Duplex (Framed Client Farewell) Service UInt8 :=
  ⟨(w.peers n).client, session, (w.peers n).read, (w.peers n).taken⟩

/-- The connection `n` has come to `d`, and nothing else has changed. -/
def put (w : World) (n : Nat) (d : Duplex (Framed Client Farewell) Service UInt8) : World where
  hub := { w.hub with sessions := w.hub.sessions.set n d.right }
  peers := Function.update w.peers n ⟨d.left, d.leftRead, d.rightRead⟩

section Moves

variable (env : Env) (t : Target) (config : ServerConfig) (who : Nat → Option Client)

/-- What can happen. `who` tells which connections are those of honest clients, and how these begin. -/
inductive Moves (w : World) : World → Prop where
  | serve {e : Event} {hub : Hub} (h : w.hub.step env config (.serve e) = some hub) : Moves w { w with hub }
  /-- Anybody else sends anything. -/
  | sends {n : Nat} {bytes : Bytes} {hub : Hub} (hwho : who n = none)
      (h : w.hub.step env config (.input n (.chunk bytes)) = some hub) : Moves w { w with hub }
  /-- The wait of a connection ends, whoever is on it. -/
  | ends {n : Nat} {ending : Ending} {hub : Hub}
      (h : w.hub.step env config (.input n (.ends ending)) = some hub) : Moves w { w with hub }
  /-- The server reads some more of what a client has written. -/
  | serverReads {n k : Nat} {hub : Hub} (hsome : 0 < k)
      (hk : (w.peers n).taken + k ≤ (Client.output (w.peers n).client.1).length)
      (h : w.hub.step env config (.input n (.chunk (((Client.output (w.peers n).client.1).drop
        (w.peers n).taken).take k))) = some hub) :
      Moves w ⟨hub, Function.update w.peers n { w.peers n with taken := (w.peers n).taken + k }⟩
  /-- A client reads some more of what the server has written to it. -/
  | clientReads {n k : Nat} {session : Session} (hsession : w.hub.sessions[n]? = some session) (hsome : 0 < k)
      (hk : (w.peers n).read + k ≤ (Service.output session.1).length) :
      Moves w ⟨w.hub, Function.update w.peers n { w.peers n with
        client := (loginReactor env t).feed (w.peers n).client
          (((Service.output session.1).drop (w.peers n).read).take k)
        read := (w.peers n).read + k }⟩

/-- The client of the connection `n` reads some more, or the server does from it, and nothing else changes. -/
structure ReadsOn (n : Nat) (w w' : World) : Prop where
  moves : Moves env t config who w w'
  alone : ∃ (session : Session) (d : Duplex (Framed Client Farewell) Service UInt8),
    w.hub.sessions[n]? = some session ∧
      Delivery (loginReactor env t) (serverReactor env) Client.output Service.output (w.pair n session) d ∧
      w' = w.put n d

/-- `w` can be reached from the start of `serve`. -/
def Reachable (options : ServeOptions) (w : World) : Prop :=
  ∃ hub, Hub.start t options = some hub ∧
    ReflTransGen (Moves env t config who) ⟨hub, fun n => .fresh env t ((who n).getD .new)⟩ w

/-- Every honest client and its connection are at a point of a conversation between the two. -/
structure Talking (w : World) : Prop where
  before : ∀ n, w.hub.sessions.length ≤ n → w.peers n = .fresh env t ((who n).getD .new)
  talks : ∀ (n : Nat) (client : Client) (session : Session), who n = some client →
    w.hub.sessions[n]? = some session →
      Talks env t (Client.onLoginPacket env.zlib t) config client (w.pair n session)

end Moves

variable {env : Env} {t : Target} {config : ServerConfig} {who : Nat → Option Client} {w w' : World}

/-- A connection is admitted, or a move of the loop does not touch the connections. -/
theorem Talking.serve {e : Event} {hub : Hub} (h : Talking env t config who w)
    (hstep : w.hub.step env config (.serve e) = some hub) : Talking env t config who { w with hub } := by
  rcases (Hub.moves_of_serve hstep).2.sessions with hsame | hmore
  · refine ⟨fun n hn => h.before n (hsame ▸ hn), fun n client session hwho hsession => ?_⟩
    exact h.talks n client session hwho (hsame ▸ hsession)
  · refine ⟨fun n hn => h.before n ?_, fun n client session hwho hsession => ?_⟩
    · simp only [hmore, List.length_append] at hn
      omega
    · simp only [hmore] at hsession
      rcases Nat.lt_or_ge n w.hub.sessions.length with hlt | hge
      · rw [List.getElem?_append_left hlt] at hsession
        exact h.talks n client session hwho hsession
      · -- the two ends of a new connection
        rw [List.getElem?_append_right hge, List.getElem?_singleton] at hsession
        obtain ⟨-, hfresh⟩ := Option.ite_none_right_eq_some.mp hsession
        have hstart : pair { w with hub } n session
            = Duplex.start (loginReactor env t) (serverReactor env) (.waiting client) (.waiting (.new config)) := by
          rw [← Option.some.inj hfresh, Duplex.start, pair, h.before n hge, hwho, Endpoint.settle_nil]
          rfl
        rw [hstart]
        exact ReflTransGen.refl

/-- What happens on one connection leaves the others alone. -/
theorem Talking.of_input {n : Nat} {session session' : Session} {hub : Hub} {peers : Nat → Peer}
    (h : Talking env t config who w) (hsession : w.hub.sessions[n]? = some session)
    (hsessions : hub.sessions = w.hub.sessions.set n session') (hpeers : ∀ n', n' ≠ n → peers n' = w.peers n')
    (hown : ∀ client, who n = some client →
      Talks env t (Client.onLoginPacket env.zlib t) config client (pair ⟨hub, peers⟩ n session')) :
    Talking env t config who ⟨hub, peers⟩ := by
  obtain ⟨hlt, -⟩ := List.getElem?_eq_some_iff.mp hsession
  constructor
  · intro n' hn'
    simp only [hsessions, List.length_set] at hn'
    exact (hpeers n' (by omega)).trans (h.before n' hn')
  · intro n' client session'' hwho hsession'
    simp only [hsessions] at hsession'
    rcases eq_or_ne n' n with rfl | hne
    · rw [List.getElem?_set_self hlt] at hsession'
      obtain rfl := Option.some.inj hsession'
      exact hown client hwho
    · rw [List.getElem?_set_ne hne.symm] at hsession'
      have hpair : pair ⟨hub, peers⟩ n' session'' = w.pair n' session'' := by
        simp only [pair, hpeers n' hne]
      rw [hpair]
      exact h.talks n' client session'' hwho hsession'

theorem session_feed {session session' : Session} {bytes : Bytes}
    (h : session.step env (.chunk bytes) = some session') : session' = (serverReactor env).feed session bytes := by
  obtain ⟨f, buffer⟩ := session
  cases f with
  | waiting s => exact (Option.some.inj h).symm
  | ended outcome => cases h

theorem session_stops {session session' : Session} {ending : Ending}
    (h : session.step env (.ends ending) = some session') :
    Connection.Stops session session'.1 ∧ session' = (session'.1, []) := by
  obtain ⟨f, buffer⟩ := session
  cases f with
  | waiting s =>
      obtain rfl := Option.some.inj h
      exact ⟨⟨s, ending, rfl, rfl⟩, rfl⟩
  | ended outcome => cases h

theorem session_step {session : Session} {s : Connection} (h : session.1 = .waiting s) (bytes : Bytes) :
    session.step env (.chunk bytes) = some ((serverReactor env).feed session bytes) := by
  obtain ⟨f, buffer⟩ := session
  obtain rfl : f = .waiting s := h
  rfl

theorem Talking.step (h : Talking env t config who w) (hmoves : Moves env t config who w w') :
    Talking env t config who w' := by
  cases hmoves with
  | serve hstep => exact h.serve hstep
  | @sends n bytes hub hwho hstep =>
      obtain ⟨session, session', hsession, -, rfl⟩ := Hub.moves_of_input hstep
      refine h.of_input hsession rfl (fun _ _ => rfl) fun client hclient => ?_
      rw [hwho] at hclient
      cases hclient
  | @ends n ending hub hstep =>
      obtain ⟨session, session', hsession, hended, rfl⟩ := Hub.moves_of_input hstep
      obtain ⟨hstops, hnothing⟩ := session_stops hended
      refine h.of_input hsession rfl (fun _ _ => rfl) fun client hclient => ?_
      have htalk : Talk (loginReactor env t) (serverReactor env) Client.output Service.output Connection.Stops
          (w.pair n session) _ := .stop hstops
      rw [← hnothing] at htalk
      exact (h.talks n client session hclient hsession).tail htalk
  | @serverReads n k hub hsome hk hstep =>
      obtain ⟨session, session', hsession, hfed, rfl⟩ := Hub.moves_of_input hstep
      obtain rfl := session_feed hfed
      refine h.of_input hsession rfl (fun n' hne => Function.update_of_ne hne _ _) fun client hclient => ?_
      have hdelivery : Delivery (loginReactor env t) (serverReactor env) Client.output Service.output
          (w.pair n session) _ := .right k hsome hk
      simp only [pair, Function.update_self]
      exact (h.talks n client session hclient hsession).tail (.read hdelivery)
  | @clientReads n k session hsession hsome hk =>
      obtain ⟨hlt, rfl⟩ := List.getElem?_eq_some_iff.mp hsession
      refine h.of_input hsession (List.set_getElem_self hlt).symm
        (fun n' hne => Function.update_of_ne hne _ _) fun client hclient => ?_
      have hdelivery : Delivery (loginReactor env t) (serverReactor env) Client.output Service.output
          (w.pair n _) _ := .left k hsome hk
      simp only [pair, Function.update_self]
      exact (h.talks n client _ hclient hsession).tail (.read hdelivery)

theorem Reachable.talking {options : ServeOptions} (h : Reachable env t config who options w) :
    Talking env t config who w := by
  obtain ⟨hub, hstart, hpath⟩ := h
  obtain ⟨server, -, rfl⟩ := Option.map_eq_some_iff.mp hstart
  induction hpath with
  | refl => exact ⟨fun _ _ => rfl, fun n client session _ hsession => by simp at hsession⟩
  | tail _ hmoves ih => exact ih.step hmoves

/-! ## Completing a login -/

theorem put_pair {n : Nat} {session : Session} (h : w.hub.sessions[n]? = some session) :
    w.put n (w.pair n session) = w := by
  obtain ⟨hlt, rfl⟩ := List.getElem?_eq_some_iff.mp h
  simp [put, pair]

theorem pair_put (w : World) (n : Nat) (d : Duplex (Framed Client Farewell) Service UInt8) :
    (w.put n d).pair n d.right = d := by
  simp [put, pair]

theorem put_put (w : World) (n : Nat) (d d' : Duplex (Framed Client Farewell) Service UInt8) :
    (w.put n d).put n d' = w.put n d' := by
  simp [put]

/-- The two ends of one connection can go on in the world as they can by themselves, as long as `serve` has not
    returned and the server's end still waits. -/
theorem follow {n : Nat} {session : Session} {d q : Duplex (Framed Client Farewell) Service UInt8}
    (hsession : w.hub.sessions[n]? = some session) (hreturned : w.hub.returned = false)
    (hpath : ReflTransGen (Delivery (loginReactor env t) (serverReactor env) Client.output Service.output) d q)
    (hwaits : ∀ d', ReflTransGen (Delivery (loginReactor env t) (serverReactor env) Client.output
      Service.output) d d' → ∃ s, d'.right.1 = .waiting s) :
    ReflTransGen (ReadsOn env t config who n) (w.put n d) (w.put n q) := by
  obtain ⟨hlt, -⟩ := List.getElem?_eq_some_iff.mp hsession
  induction hpath with
  | refl => exact ReflTransGen.refl
  | @tail d₁ d₂ hpath hdelivery ih =>
      have hcurrent : (w.put n d₁).hub.sessions[n]? = some d₁.right := List.getElem?_set_self hlt
      refine ih.tail ⟨?_, d₁.right, d₂, hcurrent, (pair_put w n d₁).symm ▸ hdelivery, (put_put w n d₁ d₂).symm⟩
      have hpeer : (w.put n d₁).peers n = ⟨d₁.left, d₁.leftRead, d₁.rightRead⟩ := Function.update_self ..
      cases hdelivery with
      | left k hsome hk =>
          have hmoves : Moves env t config who (w.put n d₁) _ :=
            .clientReads hcurrent hsome (by rw [hpeer]; exact hk)
          simpa [put, hpeer] using hmoves
      | right k hsome hk =>
          obtain ⟨s, hwaiting⟩ := hwaits d₁ hpath
          have hactive : (w.put n d₁).hub.returned = false := hreturned
          have hmoves : Moves env t config who (w.put n d₁) _ :=
            .serverReads hsome (by rw [hpeer]; exact hk)
              (Hub.step_input hactive hcurrent (session_step hwaiting _))
          simpa [put, hpeer] using hmoves

/-! ## The world and the hub -/

/-- Where the honest clients have done nothing yet, the world does what the hub does. -/
theorem Reachable.of_run {options : ServeOptions} {events : List HubEvent} {hub : Hub}
    (h : Hub.run env config t options events = some hub)
    (hothers : ∀ n input, .input n input ∈ events → who n = none) :
    Reachable env t config who options ⟨hub, fun n => .fresh env t ((who n).getD .new)⟩ := by
  obtain ⟨hub₀, hstart, hrun⟩ := Option.bind_eq_some_iff.mp h
  refine ⟨hub₀, hstart, ?_⟩
  refine runEvents_induction (P := fun events hub => (∀ n input, .input n input ∈ events → who n = none) →
    ReflTransGen (Moves env t config who) ⟨hub₀, fun n => .fresh env t ((who n).getD .new)⟩
      ⟨hub, fun n => .fresh env t ((who n).getD .new)⟩) (fun _ => ReflTransGen.refl) ?_ hrun hothers
  intro events hub event hub' ih hstep hothers
  have hpath := ih fun n input hmem => hothers n input (List.mem_append_left _ hmem)
  cases event with
  | serve e => exact hpath.tail (.serve hstep)
  | input n input =>
      cases input with
      | chunk bytes => exact hpath.tail (.sends (hothers n (.chunk bytes) (by simp)) hstep)
      | ends ending => exact hpath.tail (.ends hstep)

/-- What happens in the world is a run of the hub. -/
theorem Reachable.run {options : ServeOptions} (h : Reachable env t config who options w) :
    ∃ events, Hub.run env config t options events = some w.hub := by
  obtain ⟨hub, hstart, hpath⟩ := h
  have hmore : ∃ events, runEvents (Hub.step env config) hub events = some w.hub := by
    induction hpath with
    | refl => exact ⟨[], rfl⟩
    | tail _ hmoves ih =>
        obtain ⟨events, hrun⟩ := ih
        cases hmoves with
        | serve hstep => exact ⟨_, runEvents_snoc hrun hstep⟩
        | sends hwho hstep => exact ⟨_, runEvents_snoc hrun hstep⟩
        | ends hstep => exact ⟨_, runEvents_snoc hrun hstep⟩
        | serverReads hsome hk hstep => exact ⟨_, runEvents_snoc hrun hstep⟩
        | clientReads hsession hsome hk => exact ⟨events, hrun⟩
  obtain ⟨events, hrun⟩ := hmore
  exact ⟨events, by rw [Hub.run, hstart]; exact hrun⟩

end World

/-- **Honest clients log in, whatever the others do.** Take any client with an acceptable name, among any others,
    over a transport that takes every write and with a zlib that inverts what it deflates. There is one end
    that its login comes to. In every state of the system that can be reached, if the client was admitted: it
    has not failed, and has received an initial part of what it receives in all, which is about its own name
    only. As long as its connection has not ended, this has its permit, and unless `serve` has returned, that
    end can be reached by reads of its own connection alone, which change nothing else. And a connection that
    has ended has done so at a point of such a login at which its wait was ended, by a timeout, by a failure or
    by the end of the stream. -/
theorem honest_logins_complete {env : Env} {t : Target} (henv : Reliable env) (hshort : ShortLogins env)
    (config : ServerConfig) (options : ServeOptions) (who : Nat → Option Client) {n : Nat} {client : Client}
    (hwho : who n = some client) {handshake : Handshake} {start : LoginStart}
    (hgreets : Client.greets env.zlib t handshake start = some client) (hnext : handshake.nextState ≠ .status)
    (haddress : Capped maxServerAddressChars handshake.serverAddress) (hname : NameValid start.name) :
    ∃ client' s', s'.state.current = .configuration ∧
      client'.received = announcement config ++ [.loginSuccess (loginSuccessFor env start.name)] ∧
      ∀ (w : World) (session : Session), World.Reachable env t config who options w →
        w.hub.sessions[n]? = some session →
        (∃ now, (w.peers n).client.1 = .waiting now ∧ now.received <+: client'.received) ∧
        (session.live = true →
          (∃ i : Nat, w.hub.ids[i]? = some n ∧ w.hub.server.connections[i]? = some .serving) ∧
          (w.hub.returned = false → ReflTransGen (World.ReadsOn env t config who n) w
            (w.put n ⟨(.waiting client', []), (.waiting s', []), s'.written.length, client'.written.length⟩))) ∧
        (session.live = false →
          BrokenOff env t (Client.onLoginPacket env.zlib t) config client (w.pair n session)) := by
  obtain ⟨client₀, client', s', hgreets₀, hends, hstate, hreceived, -⟩ := login_ends henv hshort t config
    handshake hnext haddress start hname
  obtain rfl := Option.some.inj (hgreets₀.symm.trans hgreets)
  have hwrites := Client.onLoginPacket_written env.zlib t
  refine ⟨client', s', hstate, hreceived, fun w session hw hsession => ?_⟩
  have htalks := hw.talking.talks n client₀ session hwho hsession
  obtain ⟨hheard, -⟩ := hends.seen hwrites (Client.onLoginPacket_heard env.zlib t) rfl rfl htalks
  have hcases := (hends.comesTo hwrites).cases _ htalks
  refine ⟨hheard, fun hlive => ?_, fun hended => ?_⟩
  · rcases hcases with ⟨hoccurs, hpath⟩ | ⟨p, -, hbroken⟩
    · refine ⟨?_, fun hreturned => ?_⟩
      · obtain ⟨events, hrun⟩ := hw.run
        exact (hub_ran hrun).aligned.permit n session hsession hlive
      · have hfollow : ReflTransGen (World.ReadsOn env t config who n) (w.put n (w.pair n session)) (w.put n _) :=
          World.follow hsession hreturned hpath fun d' hd' => (hends.waiting rfl rfl (hoccurs.trans hd')).2
        rwa [World.put_pair hsession] at hfollow
    · -- a connection whose wait has ended is not live
      obtain ⟨-, ending, -, hended⟩ := hbroken.stopped
      obtain ⟨s, hwaits⟩ := Session.live_iff.mp hlive
      have hended : session.1 = .ended _ := hended
      rw [hwaits] at hended
      cases hended
  · rcases hcases with ⟨hoccurs, -⟩ | hbroken
    · have hlive := Session.live_iff.mpr (hends.waiting rfl rfl hoccurs).2
      exact absurd (hlive.symm.trans hended) (by simp)
    · exact hbroken

/-- The client of a test, on the connection after that of a peer that sends garbage. -/
def amongOthers (client : Client) (n : Nat) : Option Client := if n = 1 then some client else none

/-- That peer sends what no length prefix begins with, and its connection ends. -/
def garbage : List HubEvent :=
  [.serve (.accept true), .serve .noneFinished, .serve .acquire, .serve .spawn, .input 0 (.chunk [255, 255]),
    .serve (.accept true), .serve .noneFinished, .serve .acquire, .serve .spawn, .input 0 (.chunk [255, 255, 255])]

theorem honest_logins_complete_steve :
    ∃ hub client client' s', Hub.run storedEnv .default .bits64 ⟨2⟩ garbage = some hub ∧
      (hub.sessions[0]?.map Session.live = some false) ∧
      client'.received = [.setCompression ⟨256⟩, .loginSuccess (loginSuccessFor storedEnv "Steve")] ∧
      ReflTransGen (World.ReadsOn storedEnv .bits64 .default (amongOthers client) 1)
        ⟨hub, fun n => .fresh storedEnv .bits64 ((amongOthers client n).getD .new)⟩
        (World.put ⟨hub, fun n => .fresh storedEnv .bits64 ((amongOthers client n).getD .new)⟩ 1
          ⟨(.waiting client', []), (.waiting s', []), s'.written.length, client'.written.length⟩) := by
  have hname : NameValid "Steve" := validateUsername_iff.mp (by decide +kernel)
  have haddress : Capped maxServerAddressChars "a" := by
    show (utf8 "a").length ≤ 765
    decide +kernel
  obtain ⟨client, hgreets⟩ : ∃ client, Client.greets storedEnv.zlib .bits64 ⟨776, "a", 25565, .login⟩
      (⟨"Steve", 0⟩ : LoginStart) = some client := by
    obtain ⟨codec, -, hgreets⟩ := greets_eq storedEnv.zlib .bits64 ⟨776, "a", 25565, .login⟩
      (⟨"Steve", 0⟩ : LoginStart) (by decide +kernel) (by decide +kernel)
    exact ⟨_, hgreets⟩
  obtain ⟨client', s', -, hreceived, hworlds⟩ := honest_logins_complete storedEnv_reliable storedEnv_shortLogins
    .default ⟨2⟩ (amongOthers client) (if_pos rfl) hgreets (by decide) haddress hname
  have hrun : Hub.run storedEnv .default .bits64 ⟨2⟩ garbage = some ⟨⟨0, [.serving, .serving], 2, 0, .listening⟩,
      [0, 1], [(.ended (.error (.protocol (.varIntTooLong 5)) (.new .default)), [255, 255, 255, 255, 255]),
        (.waiting (.new .default), [])]⟩ := rfl
  have hothers : ∀ n input, HubEvent.input n input ∈ garbage → amongOthers client n = none := by
    intro n input hmem
    simp only [garbage, List.mem_cons, reduceCtorEq, HubEvent.input.injEq, List.not_mem_nil, or_false,
      false_or] at hmem
    rcases hmem with ⟨rfl, -⟩ | ⟨rfl, -⟩ <;> rfl
  exact ⟨_, client, client', s', hrun, rfl, hreceived,
    ((hworlds _ _ (World.Reachable.of_run hrun hothers) rfl).2.1 rfl).2 rfl⟩

end Pyrite.Net
