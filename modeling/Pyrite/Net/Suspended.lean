import Pyrite.Net.Hub

set_option autoImplicit false

/-! # Handlers that are suspended

`Session.step` takes everything that a chunk of input completes at once. In the source a handler awaits its writes,
so a connection can stand between two frames for as long as its peer does not read, with frames unread that are
whole, while everything else goes on. Here a connection takes one frame at a time.

Nothing comes of this that could not come of whole chunks, if each of them is taken when the last of its frames
is handled (`suspended_refines`). So what holds in every state of `Hub.run` carries over, and what a connection
can hold unread is a frame and what it has read at a time (`input_bounded`). -/

namespace Pyrite.Net

open Wire Protocol Relation

variable {env : Env} {config : ServerConfig} {t : Target} {options : ServeOptions} {r : Nat}

/-! ## One frame at a time -/

/-- `run` awaits input: no frame that it could handle is complete. -/
def Session.Awaits (env : Env) (session : Session) : Prop := (serverReactor env).next session.1 session.2 = none

/-- One step of a connection that reads at most `r` bytes at a time. -/
inductive Session.Runs (env : Env) (r : Nat) : Session → Session → Prop where
  | reads {s : Connection} {buffer : Bytes} (bytes : Bytes) (hawaits : Session.Awaits env (.waiting s, buffer))
      (hsize : bytes.length ≤ r) : Runs env r (.waiting s, buffer) (.waiting s, buffer ++ bytes)
  /-- A frame is handled, or refused. While it is, no more is unread than before. -/
  | handles {session session' : Session}
      (hnext : (serverReactor env).next session.1 session.2 = some session') : Runs env r session session'
  | ends {s : Connection} {buffer : Bytes} (ending : Ending) (hawaits : Session.Awaits env (.waiting s, buffer)) :
      Runs env r (.waiting s, buffer) (.ended (Connection.finish ending (.waiting s, buffer)), [])

/-- One step of the accept loop, or of one of the connections. -/
inductive Hub.Runs (env : Env) (config : ServerConfig) (r : Nat) (hub : Hub) : Hub → Prop where
  | serve {e : Event} {hub' : Hub} (h : hub.step env config (.serve e) = some hub') : Runs env config r hub hub'
  | session {n : Nat} {session session' : Session} (hreturned : hub.returned = false)
      (hsession : hub.sessions[n]? = some session) (h : session.Runs env r session') :
      Runs env config r hub { hub with sessions := hub.sessions.set n session' }

/-- `hub` can be reached when handlers can be suspended. -/
def Hub.Suspended (env : Env) (config : ServerConfig) (r : Nat) (t : Target) (options : ServeOptions)
    (hub : Hub) : Prop :=
  ∃ hub₀, Hub.start t options = some hub₀ ∧ ReflTransGen (Hub.Runs env config r) hub₀ hub

theorem Hub.Suspended.runs {hub hub' : Hub} (h : hub.Suspended env config r t options)
    (hruns : hub.Runs env config r hub') : hub'.Suspended env config r t options := by
  obtain ⟨hub₀, hstart, hpath⟩ := h
  exact ⟨hub₀, hstart, hpath.tail hruns⟩

/-! ## Whole chunks -/

/-- `fine` is in the middle of what some bytes let `coarse` do, or it is `coarse`. -/
structure Session.Amid (env : Env) (r : Nat) (coarse fine : Session) : Prop where
  awaits : coarse.Awaits env
  cases : fine = coarse ∨ (¬ fine.Awaits env ∧ coarse.live = true ∧ ∃ bytes : Bytes, bytes.length ≤ r ∧
    (serverReactor env).Takes (coarse.1, coarse.2 ++ bytes) fine)

theorem Session.live_of_not_awaits {session : Session} (h : ¬ session.Awaits env) : session.live = true := by
  obtain ⟨f, buffer⟩ := session
  cases f with
  | waiting s => rfl
  | ended outcome => exact absurd rfl h

theorem Session.Amid.live {coarse fine : Session} (h : coarse.Amid env r fine) : fine.live = coarse.live := by
  rcases h.cases with rfl | ⟨hcomplete, hlive, -⟩
  · rfl
  · rw [Session.live_of_not_awaits hcomplete, hlive]

theorem Session.awaits_ended (outcome : Outcome NetError Connection Unit) (buffer : Bytes) :
    Session.Awaits env (.ended outcome, buffer) := rfl

theorem Session.Amid.fresh (env : Env) (config : ServerConfig) (r : Nat) :
    Session.Amid env r (.fresh config) (.fresh config) := by
  have hnothing : (serverEnd env).next env.zlib env.target (.waiting (.new config)) [] = none :=
    ((serverEnd env).next_eq_none env.zlib env.target).mpr rfl
  exact ⟨hnothing, Or.inl rfl⟩

/-- When everything is handled that the bytes complete, the chunk is taken. -/
theorem Session.Amid.takes {coarse fine : Session} {bytes : Bytes} (hawaits : coarse.Awaits env)
    (hlive : coarse.live = true) (hsize : bytes.length ≤ r)
    (h : (serverReactor env).Takes (coarse.1, coarse.2 ++ bytes) fine) :
    ∃ inputs coarse', runEvents (Session.step env) coarse inputs = some coarse' ∧ coarse'.Amid env r fine := by
  by_cases hdone : fine.Awaits env
  · obtain ⟨s, hwaiting⟩ := Session.live_iff.mp hlive
    obtain ⟨f, buffer⟩ := coarse
    obtain rfl : f = .waiting s := hwaiting
    have hsettle : (serverReactor env).feed (.waiting s, buffer) bytes = fine := by
      rw [Reactor.feed, h.settle_eq, Reactor.settle_of_none hdone]
    exact ⟨[.chunk bytes], fine, by rw [runEvents_singleton, Session.step, hsettle], hdone, Or.inl rfl⟩
  · exact ⟨[], coarse, rfl, hawaits, Or.inr ⟨hdone, hlive, bytes, hsize, h⟩⟩

/-- **One step of a connection** is at most one input of one that takes whole chunks. -/
theorem Session.Amid.runs {coarse fine fine' : Session} (h : coarse.Amid env r fine) (hruns : fine.Runs env r fine') :
    ∃ inputs coarse', runEvents (Session.step env) coarse inputs = some coarse' ∧ coarse'.Amid env r fine' := by
  cases hruns with
  | reads bytes hawaits hsize =>
      rcases h.cases with rfl | ⟨hcomplete, -⟩
      · exact Session.Amid.takes h.awaits rfl hsize ReflTransGen.refl
      · exact absurd hawaits hcomplete
  | handles hnext =>
      rcases h.cases with rfl | ⟨-, hlive, bytes, hsize, htakes⟩
      · exact absurd (h.awaits.symm.trans hnext) (by simp)
      · exact Session.Amid.takes h.awaits hlive hsize (htakes.tail hnext)
  | ends ending hawaits =>
      rcases h.cases with rfl | ⟨hcomplete, -⟩
      · exact ⟨[.ends ending], _, runEvents_singleton _ _ _, Session.awaits_ended _ _, Or.inl rfl⟩
      · exact absurd hawaits hcomplete

/-! ## The system -/

/-- The loop is in the same state, and each connection of `fine` is in the middle of what some bytes let that of
    `coarse` do. -/
structure Hub.Amid (env : Env) (r : Nat) (coarse fine : Hub) : Prop where
  server : fine.server = coarse.server
  ids : fine.ids = coarse.ids
  length : fine.sessions.length = coarse.sessions.length
  sessions : ∀ (n : Nat) (c f : Session), coarse.sessions[n]? = some c → fine.sessions[n]? = some f → c.Amid env r f

namespace Hub.Amid

variable {coarse fine fine' : Hub}

theorem session (h : coarse.Amid env r fine) {n : Nat} {f : Session} (hf : fine.sessions[n]? = some f) :
    ∃ c, coarse.sessions[n]? = some c ∧ c.Amid env r f := by
  have hlt : n < coarse.sessions.length := h.length ▸ (List.getElem?_eq_some_iff.mp hf).1
  exact ⟨_, List.getElem?_eq_getElem hlt, h.sessions n _ f (List.getElem?_eq_getElem hlt) hf⟩

theorem busy (h : coarse.Amid env r fine) (i : Nat) : fine.busy i = coarse.busy i := by
  simp only [Hub.busy, h.ids]
  cases coarse.ids[i]? with
  | none => rfl
  | some n =>
      simp only [Option.bind_some]
      cases hf : fine.sessions[n]? with
      | none =>
          have hge := List.getElem?_eq_none_iff.mp hf
          rw [List.getElem?_eq_none (h.length ▸ hge)]
      | some f =>
          obtain ⟨c, hc, hamid⟩ := h.session hf
          rw [hc]
          exact hamid.live

theorem returned (h : coarse.Amid env r fine) : fine.returned = coarse.returned := by
  simp only [Hub.returned, h.server]

/-- The loop does the same. -/
theorem serve (h : coarse.Amid env r fine) {e : Event} (hstep : fine.step env config (.serve e) = some fine') :
    ∃ coarse', coarse.step env config (.serve e) = some coarse' ∧ coarse'.Amid env r fine' := by
  have hallows : fine.allows e = coarse.allows e := by
    cases e with
    | release i => simp only [Hub.allows, h.busy]
    | _ => rfl
  simp only [Hub.step, Option.ite_none_left_eq_some, Option.ite_none_right_eq_some, Option.map_eq_some_iff,
    h.returned, hallows, h.server] at hstep ⊢
  obtain ⟨hreturned, hallowed, server, hserver, rfl⟩ := hstep
  refine ⟨_, ⟨hreturned, hallowed, server, hserver, rfl⟩, ?_⟩
  cases e with
  | spawn =>
      refine ⟨rfl, by simp [Hub.attend, h.ids, h.length], by simp [Hub.attend, h.length], ?_⟩
      intro n c f hc hf
      simp only [Hub.attend] at hc hf
      rcases Nat.lt_or_ge n fine.sessions.length with hlt | hge
      · rw [List.getElem?_append_left hlt] at hf
        rw [List.getElem?_append_left (h.length ▸ hlt)] at hc
        exact h.sessions n c f hc hf
      · -- the new connection
        rw [List.getElem?_append_right hge, List.getElem?_singleton] at hf
        rw [List.getElem?_append_right (h.length ▸ hge), List.getElem?_singleton] at hc
        obtain ⟨-, hfine⟩ := Option.ite_none_right_eq_some.mp hf
        obtain ⟨-, hcoarse⟩ := Option.ite_none_right_eq_some.mp hc
        rw [← Option.some.inj hfine, ← Option.some.inj hcoarse]
        exact Session.Amid.fresh env config r
  | joined i => exact ⟨rfl, by simp [Hub.attend, h.ids], h.length, h.sessions⟩
  | _ => exact ⟨rfl, h.ids, h.length, h.sessions⟩

end Hub.Amid

/-- A connection is given several inputs in turn. -/
theorem Hub.step_inputs {hub : Hub} {n : Nat} {session session' : Session} {inputs : List Input}
    (hreturned : hub.returned = false) (hsession : hub.sessions[n]? = some session)
    (h : runEvents (Session.step env) session inputs = some session') :
    runEvents (Hub.step env config) hub (inputs.map (HubEvent.input n))
      = some { hub with sessions := hub.sessions.set n session' } := by
  obtain ⟨hlt, rfl⟩ := List.getElem?_eq_some_iff.mp hsession
  refine runEvents_induction (P := fun inputs session' =>
    runEvents (Hub.step env config) hub (inputs.map (HubEvent.input n))
      = some { hub with sessions := hub.sessions.set n session' }) ?_ ?_ h
  · rw [List.set_getElem_self]
    rfl
  · intro inputs session₁ input session₂ hbefore hstep
    have hcurrent : (hub.sessions.set n session₁)[n]? = some session₁ := List.getElem?_set_self hlt
    have hlast : Hub.step env config { hub with sessions := hub.sessions.set n session₁ } (.input n input) = some _ :=
      Hub.step_input hreturned hcurrent hstep
    rw [List.set_set] at hlast
    rw [List.map_append]
    exact runEvents_snoc hbefore hlast

/-- **One step** of a system whose handlers can be suspended. -/
theorem Hub.Amid.runs {coarse fine fine' : Hub} (h : coarse.Amid env r fine) (hruns : fine.Runs env config r fine') :
    ∃ events coarse', runEvents (Hub.step env config) coarse events = some coarse' ∧ coarse'.Amid env r fine' := by
  cases hruns with
  | @serve e _ hstep =>
      obtain ⟨coarse', hcoarse, hamid⟩ := h.serve hstep
      exact ⟨[.serve e], coarse', (runEvents_singleton _ _ _).trans hcoarse, hamid⟩
  | @session n f f' hreturned hf hruns =>
      obtain ⟨c, hc, hamid⟩ := h.session hf
      obtain ⟨inputs, c', hinputs, hamid'⟩ := hamid.runs hruns
      refine ⟨_, _, Hub.step_inputs (h.returned ▸ hreturned) hc hinputs, h.server, h.ids, by simp [h.length], ?_⟩
      intro n' c'' f'' hc'' hf''
      simp only at hc'' hf''
      rcases eq_or_ne n' n with rfl | hne
      · rw [List.getElem?_set_self (List.getElem?_eq_some_iff.mp hc).1] at hc''
        rw [List.getElem?_set_self (List.getElem?_eq_some_iff.mp hf).1] at hf''
        rw [← Option.some.inj hc'', ← Option.some.inj hf'']
        exact hamid'
      · rw [List.getElem?_set_ne hne.symm] at hc'' hf''
        exact h.sessions n' c'' f'' hc'' hf''

/-- **Whole chunks are enough.** Where handlers can be suspended, every state that can be reached is one that can be
    reached by whole chunks, up to what the connections have handled of the bytes that they have read last. -/
theorem suspended_refines {fine : Hub} (h : fine.Suspended env config r t options) :
    ∃ events coarse, Hub.run env config t options events = some coarse ∧ coarse.Amid env r fine := by
  obtain ⟨hub₀, hstart, hpath⟩ := h
  induction hpath with
  | refl =>
      refine ⟨[], hub₀, by rw [Hub.run, hstart]; rfl, rfl, rfl, rfl, fun n c f hc => ?_⟩
      obtain ⟨server, -, rfl⟩ := Option.map_eq_some_iff.mp hstart
      simp at hc
  | tail _ hruns ih =>
      obtain ⟨events, coarse, hrun, hamid⟩ := ih
      obtain ⟨more, coarse', hmore, hamid'⟩ := hamid.runs hruns
      refine ⟨events ++ more, coarse', ?_, hamid'⟩
      rw [Hub.run, hstart] at hrun ⊢
      exact runEvents_trans hrun hmore

/-! ## What all of them hold -/

theorem Hub.Amid.aligned {coarse fine : Hub} (h : coarse.Amid env r fine) (haligned : coarse.Aligned) :
    fine.Aligned := by
  refine ⟨?_, ?_, ?_, ?_, ?_⟩
  · rw [h.ids, h.server, haligned.ids]
  · rw [h.length, h.server, haligned.sessions]
  · rw [h.ids]
    exact haligned.distinct
  · rw [h.ids, h.length]
    exact haligned.admitted
  · intro n f hf hlive
    obtain ⟨c, hc, hamid⟩ := h.session hf
    rw [h.ids, h.server]
    exact haligned.permit n c hc (hamid.live ▸ hlive)

/-- Handling frames does not add to what is unread. -/
theorem takes_length_le {session session' : Session} (h : (serverReactor env).Takes session session') :
    session'.2.length ≤ session.2.length := by
  induction h with
  | refl => exact le_rfl
  | tail _ hnext ih =>
      obtain ⟨-, -, ⟨-, -, -, hle⟩ | ⟨-, -, -, hlt⟩, -⟩ := (serverEnd env).next_eq_some env.zlib env.target hnext
      · exact le_trans hle ih
      · exact le_trans hlt.le ih

theorem Session.unread_le (session : Session) : session.unread ≤ session.2.length := by
  obtain ⟨f, buffer⟩ := session
  cases f with
  | waiting s => exact le_rfl
  | ended outcome => exact Nat.zero_le _

/-- A connection that awaits input holds less than one frame. -/
theorem Session.Awaits.unread_lt {session : Session} (h : session.Awaits env) :
    session.unread < maxVarintLen + maxPacketSize := by
  obtain ⟨f, buffer⟩ := session
  cases f with
  | waiting s => exact length_lt_of_incomplete (((serverEnd env).next_eq_none env.zlib env.target).mp h)
  | ended outcome => exact Nat.add_pos_left (by decide) maxPacketSize

theorem Session.Amid.unread_lt {coarse fine : Session} (h : coarse.Amid env r fine) :
    fine.unread < maxVarintLen + maxPacketSize + r := by
  have hcoarse := h.awaits.unread_lt
  rcases h.cases with rfl | ⟨-, hlive, bytes, hsize, htakes⟩
  · omega
  · have hle := le_trans fine.unread_le (takes_length_le htakes)
    obtain ⟨s, hwaiting⟩ := Session.live_iff.mp hlive
    obtain ⟨f, buffer⟩ := coarse
    obtain rfl : f = .waiting s := hwaiting
    have hcoarse : buffer.length < maxVarintLen + maxPacketSize := hcoarse
    have hle : fine.unread ≤ (buffer ++ bytes).length := hle
    rw [List.length_append] at hle
    omega

theorem Hub.Amid.live_le {coarse fine : Hub} {events : List HubEvent} (h : coarse.Amid env r fine)
    (hran : Ran env config t options events coarse) :
    fine.sessions.countP Session.live ≤ options.maxConnections := by
  have hpermits := (serve_balanced hran.serves).permits
  have hserving := (h.aligned hran.aligned).live_le
  rw [h.server] at hserving
  simp only [Server.held] at hpermits
  omega

theorem Hub.Amid.unread_lt {coarse fine : Hub} (h : coarse.Amid env r fine) :
    ∀ session ∈ fine.sessions, session.unread < maxVarintLen + maxPacketSize + r := by
  intro session hmem
  obtain ⟨n, hn⟩ := List.mem_iff_getElem?.mp hmem
  obtain ⟨c, -, hc⟩ := h.session hn
  exact hc.unread_lt

/-- **What peers can make the server hold is bounded**, at every moment, also while handlers are suspended because
    their peers do not read. Let a connection read at most `r` bytes at a time. In every state that the system
    can reach: each connection that has not ended has a task that holds a permit, so there are no more of them
    than the maximum; one that awaits input has less than one frame of unread bytes, and any other less than
    that and what it has read last; and so there is a bound for the unread bytes of all peers together that
    only depends on the maximum and on `r`. -/
theorem input_bounded {hub : Hub} (h : hub.Suspended env config r t options) :
    (∀ (n : Nat) (session : Session), hub.sessions[n]? = some session → session.live = true →
      ∃ i : Nat, hub.ids[i]? = some n ∧ hub.server.connections[i]? = some .serving) ∧
    hub.sessions.countP Session.live ≤ options.maxConnections ∧
    (∀ session ∈ hub.sessions, (session.Awaits env → session.unread < maxVarintLen + maxPacketSize) ∧
      session.unread < maxVarintLen + maxPacketSize + r) ∧
    (hub.sessions.map Session.unread).sum ≤ options.maxConnections * (maxVarintLen + maxPacketSize + r) := by
  obtain ⟨events, coarse, hrun, hamid⟩ := suspended_refines h
  have hlive := hamid.live_le (hub_ran hrun)
  have hunread := hamid.unread_lt
  refine ⟨(hamid.aligned (hub_ran hrun).aligned).permit, hlive,
    fun session hmem => ⟨fun hawaits => hawaits.unread_lt, hunread session hmem⟩, ?_⟩
  calc (hub.sessions.map Session.unread).sum
      ≤ hub.sessions.countP Session.live * (maxVarintLen + maxPacketSize + r) :=
        sum_map_le_countP_mul fun session hmem =>
          ⟨(hunread session hmem).le, Session.unread_eq_zero⟩
    _ ≤ options.maxConnections * (maxVarintLen + maxPacketSize + r) := Nat.mul_le_mul_right _ hlive

/-- The only place is taken. -/
theorem suspended_admitted (r : Nat) : Hub.Suspended storedEnv .default r .bits64 ⟨1⟩
    ⟨⟨0, [.serving], 1, 0, .listening⟩, [0], [.fresh .default]⟩ :=
  ⟨⟨⟨1, [], 0, 0, .listening⟩, [], []⟩, rfl,
    (((ReflTransGen.single (.serve (e := .accept true) rfl)).tail (.serve (e := .noneFinished) rfl)).tail
      (.serve (e := .acquire) rfl)).tail (.serve (e := .spawn) rfl)⟩

/-- A handshake for a login, and two `LoginStart`s behind it. -/
def pipelined : Bytes :=
  [8, 0, 136, 6, 1, 97, 99, 221, 2] ++ ([23, 0, 5, 83, 116, 101, 118, 101] ++ List.replicate 16 0)
    ++ ([23, 0, 5, 83, 116, 101, 118, 101] ++ List.replicate 16 0)

/-- The handshake has been handled, and the rest is whole frames. -/
theorem input_bounded_pipelined :
    ∃ hub : Hub, hub.Suspended storedEnv .default 57 .bits64 ⟨1⟩ ∧ (hub.sessions.map Session.unread).sum = 48 ∧
      (hub.sessions.map Session.unread).sum ≤ 1 * (maxVarintLen + maxPacketSize + 57) := by
  have hread : Hub.Runs storedEnv .default 57 ⟨⟨0, [.serving], 1, 0, .listening⟩, [0], [.fresh .default]⟩
      ⟨⟨0, [.serving], 1, 0, .listening⟩, [0], [(.waiting (.new .default), pipelined)]⟩ :=
    .session (n := 0) rfl rfl (.reads pipelined rfl le_rfl)
  have hnext : (serverReactor storedEnv).next (.waiting (.new .default)) pipelined
      = some (.waiting { Connection.new .default with state := ⟨.login, false⟩ }, pipelined.drop 9) := rfl
  have hsuspended := ((suspended_admitted 57).runs hread).runs (.session (n := 0) rfl rfl (.handles hnext))
  exact ⟨_, hsuspended, rfl, (input_bounded hsuspended).2.2.2⟩

end Pyrite.Net
