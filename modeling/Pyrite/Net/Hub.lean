import Pyrite.Net.Serve
import Pyrite.Net.Transport

set_option autoImplicit false

/-! # The server and its connections

`serve` together with every connection that it has admitted, each in its `run`. What happens is an event of
the accept loop, or a connection is handed some bytes, or its wait for bytes ends; all of this in any order.
A task drops its permit only when the `run` it awaits has returned. The system is followed until `serve`
returns: what is left then is aborted with the `JoinSet`.

Each connection behaves as it would alone (`connections_isolated`), and there are never more of them than
permits (`Ran.live_le`). -/

namespace Pyrite.Net

open Wire Protocol

/-! ## One connection -/

/-- What a connection waits for. -/
inductive Input where
  /-- The transport hands over some bytes. -/
  | chunk (bytes : Bytes)
  /-- The wait for more has ended. -/
  | ends (ending : Ending)

/-- A `run` with the bytes that it has not used. -/
abbrev Session : Type := Service × Bytes

namespace Session

def fresh (config : ServerConfig) : Session := (.waiting (.new config), [])

/-- `run` awaits input until it returns. A chunk is taken in one step, with the answers to all of its frames;
    where a flush has to wait in between is in `Pyrite.Net.Suspended`. -/
def step (env : Env) : Session → Input → Option Session
  | (.waiting s, buffer), .chunk bytes => some ((serverReactor env).feed (.waiting s, buffer) bytes)
  | (.waiting s, buffer), .ends ending => some (.ended (Connection.finish ending (.waiting s, buffer)), [])
  | (.ended _, _), _ => none

/-- `run` has not returned. -/
def live : Session → Bool
  | (.waiting _, _) => true
  | (.ended _, _) => false

theorem live_iff {session : Session} : session.live = true ↔ ∃ s, session.1 = .waiting s := by
  obtain ⟨f, buffer⟩ := session
  cases f <;> simp [live]

/-- Who is given input has not returned. -/
theorem live_of_step {env : Env} {session session' : Session} {input : Input}
    (h : session.step env input = some session') : session.live = true := by
  obtain ⟨f, buffer⟩ := session
  cases f with
  | waiting s => rfl
  | ended outcome => cases h

/-- How many bytes a connection holds that it has not used. -/
def unread : Session → Nat
  | (.waiting _, buffer) => buffer.length
  | (.ended _, _) => 0

end Session

/-! ## All of them -/

structure Hub where
  server : Server
  /-- For each task in the `JoinSet`, which connection it services. -/
  ids : List Nat
  /-- Every connection that was admitted, in order. -/
  sessions : List Session

inductive HubEvent where
  | serve (event : Event)
  | input (id : Nat) (input : Input)

namespace Hub

variable (env : Env) (config : ServerConfig)

def start (t : Target) (options : ServeOptions) : Option Hub :=
  (Server.start t options).map fun server => ⟨server, [], []⟩

/-- The connection of the task at `i` has not returned. -/
def busy (hub : Hub) (i : Nat) : Bool :=
  (hub.ids[i]?.bind fun id => hub.sessions[id]?).any Session.live

/-- What an event of the loop does to the connections. -/
def attend (hub : Hub) : Event → Hub
  | .spawn => { hub with
      ids := hub.ids ++ [hub.sessions.length]
      sessions := hub.sessions ++ [.fresh config] }
  | .joined i => { hub with ids := hub.ids.eraseIdx i }
  | _ => hub

/-- `drop(permit)` stands behind `run().await`. -/
def allows (hub : Hub) : Event → Bool
  | .release i => !hub.busy i
  | _ => true

/-- `serve` has returned. -/
def returned (hub : Hub) : Bool :=
  match hub.server.phase with
  | .returned _ => true
  | _ => false

/-- One event. `none` where it cannot happen. -/
def step (hub : Hub) (event : HubEvent) : Option Hub :=
  if hub.returned then none
  else match event with
    | .serve e =>
      if hub.allows e then
        (hub.server.step e).map fun server => { hub.attend config e with server }
      else none
    | .input id input => do
      let session ← hub.sessions[id]?
      let session ← session.step env input
      pure { hub with sessions := hub.sessions.set id session }

/-- The system, up to some point of a run in which `events` have happened. -/
def run (t : Target) (options : ServeOptions) (events : List HubEvent) : Option Hub :=
  (start t options).bind fun hub => runEvents (step env config) hub events

end Hub

/-- The events of the accept loop. -/
def HubEvent.ofServe : HubEvent → Option Event
  | .serve e => some e
  | .input _ _ => none

/-- The events of the connection `n`. -/
def HubEvent.ofInput (n : Nat) : HubEvent → Option Input
  | .serve _ => none
  | .input id given => if id = n then some given else none

/-! ## Moves -/

namespace Hub

variable {env : Env} {config : ServerConfig}

/-- The step function as a relation. -/
inductive Moves (env : Env) (config : ServerConfig) (hub : Hub) : HubEvent → Hub → Prop where
  | spawn {server : Server} (hserver : hub.server.Moves .spawn server) :
      Moves env config hub (.serve .spawn)
        ⟨server, hub.ids ++ [hub.sessions.length], hub.sessions ++ [.fresh config]⟩
  | joined {server : Server} {i : Nat} (hserver : hub.server.Moves (.joined i) server) :
      Moves env config hub (.serve (.joined i)) ⟨server, hub.ids.eraseIdx i, hub.sessions⟩
  | release {server : Server} {i : Nat} (hserver : hub.server.Moves (.release i) server)
      (hidle : hub.busy i = false) :
      Moves env config hub (.serve (.release i)) ⟨server, hub.ids, hub.sessions⟩
  | other {server : Server} {e : Event} (hserver : hub.server.Moves e server) (hspawn : e ≠ .spawn)
      (hjoined : e.isJoined = false) (hrelease : ∀ i, e ≠ .release i) :
      Moves env config hub (.serve e) ⟨server, hub.ids, hub.sessions⟩
  | input {id : Nat} {input : Input} {session session' : Session} (hid : hub.sessions[id]? = some session)
      (hstep : session.step env input = some session') :
      Moves env config hub (.input id input) ⟨hub.server, hub.ids, hub.sessions.set id session'⟩

/-- What an event of the loop can do, beside what it does to the loop. -/
theorem moves_of_serve {hub hub' : Hub} {e : Event} (h : hub.step env config (.serve e) = some hub') :
    hub.server.step e = some hub'.server ∧ Moves env config hub (.serve e) hub' := by
  simp only [step, Option.ite_none_left_eq_some, Option.ite_none_right_eq_some, Option.map_eq_some_iff] at h
  obtain ⟨-, hallows, server, hserver, rfl⟩ := h
  refine ⟨hserver, ?_⟩
  have hmoves := Server.moves_of_step hserver
  cases e with
  | spawn => exact .spawn hmoves
  | joined i => exact .joined hmoves
  | release i => exact .release hmoves (by simpa [allows] using hallows)
  | _ => exact .other hmoves (by simp) rfl (by simp)

theorem moves_of_input {hub hub' : Hub} {id : Nat} {input : Input}
    (h : hub.step env config (.input id input) = some hub') :
    ∃ session session', hub.sessions[id]? = some session ∧ session.step env input = some session' ∧
      hub' = { hub with sessions := hub.sessions.set id session' } := by
  simp only [step, Option.ite_none_left_eq_some] at h
  obtain ⟨-, h⟩ := h
  obtain ⟨session, hid, h⟩ := Option.bind_eq_some_iff.mp h
  obtain ⟨session', hstep, h⟩ := Option.bind_eq_some_iff.mp h
  obtain rfl := Option.some.inj h
  exact ⟨session, session', hid, hstep, rfl⟩

/-- Until `serve` has returned, input that a connection awaits can be given to it. -/
theorem step_input {hub : Hub} {id : Nat} {input : Input} {session session' : Session}
    (hreturned : hub.returned = false) (hid : hub.sessions[id]? = some session)
    (hstep : session.step env input = some session') :
    hub.step env config (.input id input) = some { hub with sessions := hub.sessions.set id session' } := by
  simp [step, hreturned, hid, hstep]

/-- **What can happen.** -/
theorem moves_of_step {hub hub' : Hub} {event : HubEvent} (h : hub.step env config event = some hub') :
    Moves env config hub event hub' := by
  cases event with
  | serve e => exact (moves_of_serve h).2
  | input id input =>
      obtain ⟨session, session', hid, hstep, rfl⟩ := moves_of_input h
      exact .input hid hstep

/-- The loop leaves the connections as they are, and may add one. -/
theorem Moves.sessions {hub hub' : Hub} {e : Event} (h : Moves env config hub (.serve e) hub') :
    hub'.sessions = hub.sessions ∨ hub'.sessions = hub.sessions ++ [.fresh config] := by
  cases h with
  | spawn hserver => exact Or.inr rfl
  | _ => exact Or.inl rfl

/-! ## Tasks and connections -/

/-- The tasks in the `JoinSet` and the connections belong together. -/
structure Aligned (hub : Hub) : Prop where
  ids : hub.ids.length = hub.server.connections.length
  sessions : hub.sessions.length = hub.server.accepted
  distinct : hub.ids.Nodup
  admitted : ∀ id ∈ hub.ids, id < hub.sessions.length
  /-- A connection that has not returned has its task, and this one holds a permit. -/
  permit : ∀ (id : Nat) (session : Session), hub.sessions[id]? = some session → session.live = true →
    ∃ i : Nat, hub.ids[i]? = some id ∧ hub.server.connections[i]? = some .serving

theorem Aligned.spawn {hub : Hub} {server : Server} (h : hub.Aligned) (hserver : hub.server.Moves .spawn server) :
    Aligned ⟨server, hub.ids ++ [hub.sessions.length], hub.sessions ++ [.fresh config]⟩ := by
  obtain ⟨hphase⟩ := hserver
  have hids := h.ids
  refine ⟨by simp [hids], by simp [h.sessions], ?_, ?_, ?_⟩
  · refine List.nodup_append.mpr ⟨h.distinct, by simp, ?_⟩
    intro id hid id' hid'
    have hlt := h.admitted id hid
    have hnew : id' = hub.sessions.length := List.mem_singleton.mp hid'
    omega
  · intro id hid
    rw [List.length_append, List.length_singleton]
    rcases List.mem_append.mp hid with hid | hid
    · exact Nat.lt_succ_of_lt (h.admitted id hid)
    · rw [List.mem_singleton.mp hid]
      exact Nat.lt_succ_self _
  · intro id session hsession hlive
    rcases Nat.lt_or_ge id hub.sessions.length with hlt | hge
    · rw [List.getElem?_append_left hlt] at hsession
      obtain ⟨i, hi, htask⟩ := h.permit id session hsession hlive
      have hbound := (List.getElem?_eq_some_iff.mp hi).1
      refine ⟨i, ?_, ?_⟩
      · rw [List.getElem?_append_left hbound, hi]
      · simp only
        rw [List.getElem?_append_left (hids ▸ hbound), htask]
    · -- the new connection and the new task
      obtain ⟨hlt, -⟩ := List.getElem?_eq_some_iff.mp hsession
      rw [List.length_append, List.length_singleton] at hlt
      obtain rfl : id = hub.sessions.length := by omega
      refine ⟨hub.ids.length, by simp, ?_⟩
      simp [hids]

theorem Aligned.joined {hub : Hub} {server : Server} {i : Nat} (h : hub.Aligned)
    (hserver : hub.server.Moves (.joined i) server) : Aligned ⟨server, hub.ids.eraseIdx i, hub.sessions⟩ := by
  obtain ⟨htask, hconnections, haccepted⟩ : hub.server.connections[i]? = some .finished ∧
      server.connections = hub.server.connections.eraseIdx i ∧ server.accepted = hub.server.accepted := by
    cases hserver with
    | joined htask hphase => exact ⟨htask, rfl, rfl⟩
    | joinedLast htask hphase hlast => exact ⟨htask, hlast.symm, rfl⟩
  have hsublist := List.eraseIdx_sublist hub.ids i
  refine ⟨?_, h.sessions.trans haccepted.symm, h.distinct.sublist hsublist,
    fun id hid => h.admitted id (hsublist.subset hid), ?_⟩
  · simp only [hconnections, List.length_eraseIdx, h.ids]
  · intro id session hsession hlive
    obtain ⟨j, hj, hserving⟩ := h.permit id session hsession hlive
    have hne : j ≠ i := by
      rintro rfl
      rw [htask] at hserving
      cases hserving
    -- the tasks behind the joined one move up by one place
    rcases Nat.lt_or_gt_of_ne hne with hlt | hgt
    · refine ⟨j, ?_, ?_⟩
      · rw [List.getElem?_eraseIdx_of_lt hlt, hj]
      · simp only [hconnections]
        rw [List.getElem?_eraseIdx_of_lt hlt, hserving]
    · refine ⟨j - 1, ?_, ?_⟩
      · rw [List.getElem?_eraseIdx_of_ge (by omega), Nat.sub_add_cancel (by omega), hj]
      · simp only [hconnections]
        rw [List.getElem?_eraseIdx_of_ge (by omega), Nat.sub_add_cancel (by omega), hserving]

/-- A move of the loop that leaves the tasks of live connections where they are. -/
theorem Aligned.of_serving {hub : Hub} {server : Server} (h : hub.Aligned)
    (hlength : server.connections.length = hub.server.connections.length)
    (haccepted : server.accepted = hub.server.accepted)
    (hserving : ∀ i : Nat, hub.server.connections[i]? = some .serving → hub.busy i = true →
      server.connections[i]? = some .serving) :
    Aligned ⟨server, hub.ids, hub.sessions⟩ := by
  refine ⟨h.ids.trans hlength.symm, h.sessions.trans haccepted.symm, h.distinct, h.admitted, ?_⟩
  intro id session hsession hlive
  obtain ⟨i, hi, htask⟩ := h.permit id session hsession hlive
  refine ⟨i, hi, hserving i htask ?_⟩
  simp [busy, hi, hsession, hlive]

theorem Aligned.step {hub hub' : Hub} {event : HubEvent} (h : hub.Aligned) (hmoves : Moves env config hub event hub') :
    hub'.Aligned := by
  cases hmoves with
  | spawn hserver => exact h.spawn hserver
  | joined hserver => exact h.joined hserver
  | @release server i hserver hidle =>
      cases hserver with
      | release htask =>
          refine h.of_serving (List.length_set ..) rfl fun j hj hbusy => ?_
          have hne : i ≠ j := by
            rintro rfl
            rw [hidle] at hbusy
            cases hbusy
          simp only
          rw [List.getElem?_set_ne hne, hj]
  | @other server e hserver hspawn hjoined hrelease =>
      have htasks := hserver.tasks
      have haccepted := hserver.accepted
      rw [if_neg hspawn] at htasks haccepted
      rw [hjoined] at htasks
      refine h.of_serving htasks haccepted fun j hj hbusy => ?_
      cases hserver with
      | @finish i htask =>
          have hne : i ≠ j := by
            rintro rfl
            rw [htask] at hj
            cases hj
          simp only
          rw [List.getElem?_set_ne hne, hj]
      | release htask => exact absurd rfl (hrelease _)
      | joined htask hphase => cases hjoined
      | joinedLast htask hphase hlast => cases hjoined
      | spawn hphase => exact absurd rfl hspawn
      | _ => exact hj
  | @input id input session session' hid hstep =>
      have hids := h.admitted
      refine ⟨h.ids, by simp [h.sessions], h.distinct, by simpa using hids, ?_⟩
      intro id' session'' hsession hlive
      by_cases hsame : id = id'
      · subst hsame
        exact h.permit id session hid (Session.live_of_step hstep)
      · simp only at hsession
        rw [List.getElem?_set_ne hsame] at hsession
        exact h.permit id' session'' hsession hlive

end Hub

/-! ## Whole runs -/

variable {env : Env} {config : ServerConfig} {t : Target} {options : ServeOptions}

theorem serve_concat {events : List Event} {e : Event} {s : Server} (h : serve t options events = some s) :
    serve t options (events ++ [e]) = s.step e := by
  obtain ⟨s₀, hstart, hrun⟩ := Option.bind_eq_some_iff.mp h
  rw [serve, hstart, Option.bind_some, runEvents_concat, hrun, Option.bind_some]

/-- What the run of a connection is, by itself: the reads of its chunks, and what these end with. -/
theorem Session.run_cases {inputs : List Input} {session : Session}
    (h : runEvents (Session.step env) (.fresh config) inputs = some session) :
    ∃ chunks : List Bytes, (inputs = chunks.map .chunk ∧ session = Connection.reads env config chunks) ∨
      ∃ ending, inputs = chunks.map .chunk ++ [.ends ending] ∧
        session = (.ended (Connection.runOver env config chunks ending), []) := by
  refine runEvents_induction (P := fun inputs session => ∃ chunks : List Bytes,
    (inputs = chunks.map .chunk ∧ session = Connection.reads env config chunks) ∨
      ∃ ending, inputs = chunks.map .chunk ++ [.ends ending] ∧
        session = (.ended (Connection.runOver env config chunks ending), [])) ?_ ?_ h
  · exact ⟨[], Or.inl ⟨rfl, rfl⟩⟩
  · rintro inputs session input session' ⟨chunks, ⟨rfl, hsession⟩ | ⟨ending, -, rfl⟩⟩ hstep
    · obtain ⟨f, buffer⟩ := session
      cases f with
      | ended outcome => cases hstep
      | waiting s =>
          cases input with
          | chunk bytes =>
              obtain rfl := Option.some.inj hstep
              refine ⟨chunks ++ [bytes], Or.inl ⟨by simp, ?_⟩⟩
              rw [hsession]
              simp [Connection.reads, Reactor.feedAll]
          | ends ending =>
              obtain rfl := Option.some.inj hstep
              refine ⟨chunks, Or.inr ⟨ending, rfl, ?_⟩⟩
              rw [hsession]
              rfl
    · -- a connection that has ended is given nothing more
      cases hstep

/-- What is known after `events`. -/
structure Ran (env : Env) (config : ServerConfig) (t : Target) (options : ServeOptions)
    (events : List HubEvent) (hub : Hub) : Prop where
  serves : serve t options (events.filterMap HubEvent.ofServe) = some hub.server
  aligned : hub.Aligned
  alone : ∀ (n : Nat) (session : Session), hub.sessions[n]? = some session →
    runEvents (Session.step env) (.fresh config) (events.filterMap (HubEvent.ofInput n)) = some session
  /-- Nobody has input before being admitted. -/
  before : ∀ n, hub.sessions.length ≤ n → events.filterMap (HubEvent.ofInput n) = []

theorem Ran.serve {events : List HubEvent} {hub hub' : Hub} {e : Event} (h : Ran env config t options events hub)
    (hserver : hub.server.step e = some hub'.server) (hmoves : hub.Moves env config (.serve e) hub') :
    Ran env config t options (events ++ [.serve e]) hub' := by
  have hown : ∀ n, (events ++ [HubEvent.serve e]).filterMap (HubEvent.ofInput n)
      = events.filterMap (HubEvent.ofInput n) := by
    intro n
    simp [HubEvent.ofInput]
  have hserves : Net.serve t options ((events ++ [HubEvent.serve e]).filterMap HubEvent.ofServe)
      = some hub'.server := by
    rw [List.filterMap_append, show [HubEvent.serve e].filterMap HubEvent.ofServe = [e] from rfl,
      serve_concat h.serves, hserver]
  have haligned := h.aligned.step hmoves
  rcases hmoves.sessions with hsame | hmore
  · refine ⟨hserves, haligned, ?_, ?_⟩
    · intro n session hsession
      rw [hown]
      exact h.alone n session (hsame ▸ hsession)
    · intro n hn
      rw [hown]
      exact h.before n (hsame ▸ hn)
  · refine ⟨hserves, haligned, ?_, ?_⟩
    · intro n session hsession
      rw [hown]
      rw [hmore] at hsession
      rcases Nat.lt_or_ge n hub.sessions.length with hlt | hge
      · rw [List.getElem?_append_left hlt] at hsession
        exact h.alone n session hsession
      · rw [h.before n hge]
        rw [List.getElem?_append_right hge, List.getElem?_singleton] at hsession
        obtain ⟨-, hfresh⟩ := Option.ite_none_right_eq_some.mp hsession
        exact hfresh
    · intro n hn
      rw [hown]
      rw [hmore, List.length_append] at hn
      exact h.before n (le_trans (Nat.le_add_right _ _) hn)

theorem Ran.input {events : List HubEvent} {hub : Hub} {id : Nat} {input : Input} {session session' : Session}
    (h : Ran env config t options events hub) (hid : hub.sessions[id]? = some session)
    (hstep : session.step env input = some session') :
    Ran env config t options (events ++ [.input id input])
      { hub with sessions := hub.sessions.set id session' } := by
  have hlt := (List.getElem?_eq_some_iff.mp hid).1
  have hown : ∀ n, id ≠ n → (events ++ [HubEvent.input id input]).filterMap (HubEvent.ofInput n)
      = events.filterMap (HubEvent.ofInput n) := by
    intro n hn
    simp [HubEvent.ofInput, hn]
  refine ⟨?_, h.aligned.step (Hub.Moves.input hid hstep : hub.Moves env config _ _), ?_, ?_⟩
  · rw [List.filterMap_append, show [HubEvent.input id input].filterMap HubEvent.ofServe = [] from rfl,
      List.append_nil]
    exact h.serves
  · intro n session'' hsession
    simp only at hsession
    by_cases hsame : id = n
    · subst hsame
      rw [List.getElem?_set_self hlt] at hsession
      obtain rfl := Option.some.inj hsession
      rw [List.filterMap_append,
        show [HubEvent.input id input].filterMap (HubEvent.ofInput id) = [input] by simp [HubEvent.ofInput],
        runEvents_concat, h.alone id session hid]
      exact hstep
    · rw [List.getElem?_set_ne hsame] at hsession
      rw [hown n hsame]
      exact h.alone n session'' hsession
  · intro n hn
    simp only [List.length_set] at hn
    rw [hown n (by omega)]
    exact h.before n hn

theorem hub_ran {events : List HubEvent} {hub : Hub} (h : Hub.run env config t options events = some hub) :
    Ran env config t options events hub := by
  obtain ⟨hub₀, hstart, hrun⟩ := Option.bind_eq_some_iff.mp h
  obtain ⟨server, hserver, rfl⟩ := Option.map_eq_some_iff.mp hstart
  refine runEvents_induction (P := Ran env config t options) ?_ ?_ hrun
  · have haccepted : server.accepted = 0 ∧ server.connections = [] := by
      simp only [Server.start, Option.ite_none_left_eq_some, Option.some.injEq] at hserver
      obtain ⟨-, rfl⟩ := hserver
      exact ⟨rfl, rfl⟩
    refine ⟨?_, ⟨?_, ?_, List.nodup_nil, by simp, by simp⟩, by simp, fun _ _ => rfl⟩
    · rw [List.filterMap_nil, serve, hserver]
      rfl
    · simp [haccepted.2]
    · simp [haccepted.1]
  · intro events hub event hub' hran hstep
    cases event with
    | serve e =>
        obtain ⟨hserver, hmoves⟩ := Hub.moves_of_serve hstep
        exact hran.serve hserver hmoves
    | input id input =>
        obtain ⟨session, session', hid, hsession, rfl⟩ := Hub.moves_of_input hstep
        exact hran.input hid hsession

theorem Hub.Aligned.live_le {hub : Hub} (h : hub.Aligned) :
    hub.sessions.countP Session.live ≤ hub.server.connections.countP (· == .serving) := by
  rw [countP_eq_length_filter_range, countP_eq_length_filter_range]
  generalize hlive : (List.range hub.sessions.length).filter (fun id => hub.sessions[id]?.any Session.live) = live
  generalize hserving : (List.range hub.server.connections.length).filter
    (fun i => hub.server.connections[i]?.any (· == .serving)) = serving
  -- each live connection is behind a serving task, and no two behind the same
  have hsubset : live.map some ⊆ serving.map (hub.ids[·]?) := by
    intro id? hmem
    obtain ⟨id, hid, rfl⟩ := List.mem_map.mp hmem
    rw [← hlive, List.mem_filter] at hid
    obtain ⟨session, hsession, hlive⟩ := (Option.any_eq_true _ _).mp hid.2
    obtain ⟨i, hi, htask⟩ := h.permit id session hsession hlive
    refine List.mem_map.mpr ⟨i, ?_, hi⟩
    rw [← hserving, List.mem_filter, List.mem_range]
    exact ⟨(List.getElem?_eq_some_iff.mp htask).1, by simp [htask]⟩
  have hnodup : (live.map some).Nodup := by
    rw [← hlive]
    exact (List.nodup_range.filter _).map (Option.some_injective _)
  have hlength := (List.subperm_of_subset hnodup hsubset).length_le
  simpa using hlength

theorem Ran.live_le {events : List HubEvent} {hub : Hub} (h : Ran env config t options events hub) :
    hub.sessions.countP Session.live ≤ options.maxConnections := by
  have hpermits := (serve_balanced h.serves).permits
  have hserving := h.aligned.live_le
  simp only [Server.held] at hpermits
  omega

theorem Session.unread_eq_zero {session : Session} (h : session.live = false) : session.unread = 0 := by
  obtain ⟨f, buffer⟩ := session
  cases f with
  | waiting s => cases h
  | ended outcome => rfl

end Pyrite.Net
