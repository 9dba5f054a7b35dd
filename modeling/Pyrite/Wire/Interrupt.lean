import Pyrite.Wire.Duplex

set_option autoImplicit false

/-! # Conversations that are broken off

The right one of two parties that talk to each other may stop at any moment, for reasons that are not in what it
reads: it has waited too long, or its connection has failed. From then on it neither reads nor writes.

A conversation that is broken off is an initial part of one that is not (`Talk.cases`). So what is known of every
order of the reads carries over: either the conversation can still come to its end, or the right party has
stopped at one of its points (`Inevitable.intended`). -/

namespace Wire

open Relation

variable {σ τ β : Type}

/-- `stops p t`: from `p` a party may stop, and is then in `t`. It keeps what it has written, takes no message any
    more, and does not stop again. -/
structure Halts (b : Reactor τ β) (out : τ → List β) (stops : τ × List β → τ → Prop) : Prop where
  output : ∀ {p t}, stops p t → out t = out p.1
  deaf : ∀ {p t}, stops p t → ∀ input, b.next t input = none
  once : ∀ {p t}, stops p t → ∀ buffer t', ¬ stops (t, buffer) t'

section Talks

variable (a : Reactor σ β) (b : Reactor τ β) (outA : σ → List β) (outB : τ → List β)
  (stops : τ × List β → τ → Prop)

/-- One of the parties reads some more, or the right one stops. -/
inductive Talk : Duplex σ τ β → Duplex σ τ β → Prop where
  | read {d d' : Duplex σ τ β} (h : Delivery a b outA outB d d') : Talk d d'
  | stop {d : Duplex σ τ β} {t : τ} (h : stops d.right t) : Talk d { d with right := (t, []) }

/-- `d` can be reached by some sequence of reads, and the right party may have stopped. -/
def Talked (s : σ) (t : τ) (d : Duplex σ τ β) : Prop :=
  ReflTransGen (Talk a b outA outB stops) (Duplex.start a b s t) d

/-- In `d` the right party has stopped at the point `q`. Of what is written after that it has read nothing. -/
structure BrokenAt (q d : Duplex σ τ β) : Prop where
  stopped : stops q.right d.right.1
  left : d.left = q.left
  leftRead : d.leftRead = q.leftRead
  /-- Bytes can still arrive, up to those that the left party has written. -/
  rightRead : d.rightRead ≤ (outA d.left.1).length

/-- Every run, whatever the order and the size of its reads, can be continued by reads to `q` and not beyond it,
    unless the right party stops, which it does at a point of such a run. None goes on for ever. -/
structure Intended (s : σ) (t : τ) (q : Duplex σ τ β) : Prop where
  reached : Reached a b outA outB s t q
  quiet : q.Quiet outA outB
  cases : ∀ d, Talked a b outA outB stops s t d →
    (Reached a b outA outB s t d ∧ ReflTransGen (Delivery a b outA outB) d q) ∨
      ∃ p, Reached a b outA outB s t p ∧ BrokenAt outA stops p d
  bounded : ∀ (run : Nat → Duplex σ τ β) (n : Nat), run 0 = Duplex.start a b s t →
    (∀ i < n, Talk a b outA outB stops (run i) (run (i + 1))) → n ≤ q.leftRead + q.rightRead + 1

end Talks

variable {a : Reactor σ β} {b : Reactor τ β} {outA : σ → List β} {outB : τ → List β}
  {stops : τ × List β → τ → Prop} {s : σ} {t : τ} {d d' p q : Duplex σ τ β}

/-- **After the end.** The left party can still read what was written before. It could have read that before the
    right party stopped, too. -/
theorem BrokenAt.delivery (ha : a.Writes outA) (hhalts : Halts b outB stops)
    (hp : Reached a b outA outB s t p) (h : BrokenAt outA stops p d) (hdelivery : Delivery a b outA outB d d') :
    ∃ p', Reached a b outA outB s t p' ∧ BrokenAt outA stops p' d' := by
  have houtput := hhalts.output h.stopped
  cases hdelivery with
  | left n hsome hn =>
      rw [houtput, h.leftRead] at hn
      have hread : Delivery a b outA outB p _ := .left n hsome hn
      refine ⟨_, hp.tail hread, h.stopped, ?_, ?_, ?_⟩
      · simp only [h.left, h.leftRead, houtput]
      · simp only [h.leftRead]
      · exact le_trans h.rightRead (ha.settle d.left.1 _).length_le
  | right n _ hn =>
      have hdeaf : (b.feed d.right (((outA d.left.1).drop d.rightRead).take n)).1 = d.right.1 := by
        rw [Reactor.feed, Reactor.settle_of_none (hhalts.deaf h.stopped _)]
      exact ⟨p, hp, by rw [hdeaf]; exact h.stopped, h.left, h.leftRead, hn⟩

/-- `d` can be reached by reads, or it is broken off; and `i` events are not more than it has reads and stops. -/
def Spent (a : Reactor σ β) (b : Reactor τ β) (outA : σ → List β) (outB : τ → List β)
    (stops : τ × List β → τ → Prop) (s : σ) (t : τ) (i : Nat) (d : Duplex σ τ β) : Prop :=
  (Reached a b outA outB s t d ∧ i ≤ d.leftRead + d.rightRead) ∨
    ∃ p, Reached a b outA outB s t p ∧ BrokenAt outA stops p d ∧ i ≤ d.leftRead + d.rightRead + 1

/-- **One event.** The right party stops once at most. -/
theorem Spent.talk (ha : a.Writes outA) (hb : b.Writes outB) (hhalts : Halts b outB stops) {i : Nat}
    (h : Spent a b outA outB stops s t i d) (htalk : Talk a b outA outB stops d d') :
    Spent a b outA outB stops s t (i + 1) d' := by
  rcases h with ⟨hd, hle⟩ | ⟨p, hp, hbroken, hle⟩
  · cases htalk with
    | read hdelivery =>
        have hreads := hdelivery.reads
        exact Or.inl ⟨hd.tail hdelivery, by omega⟩
    | stop hstops =>
        exact Or.inr ⟨d, hd, ⟨hstops, rfl, rfl, (hd.consistent ha hb).rightRead⟩, Nat.succ_le_succ hle⟩
  · cases htalk with
    | read hdelivery =>
        have hreads := hdelivery.reads
        obtain ⟨p', hp', hbroken'⟩ := hbroken.delivery ha hhalts hp hdelivery
        exact Or.inr ⟨p', hp', hbroken', by omega⟩
    | stop hstops => exact absurd hstops (hhalts.once hbroken.stopped _ _)

theorem Spent.start : Spent a b outA outB stops s t 0 (Duplex.start a b s t) :=
  Or.inl ⟨ReflTransGen.refl, Nat.zero_le _⟩

/-- **A conversation that is broken off is an initial part of one that is not.** -/
theorem Talk.cases (ha : a.Writes outA) (hb : b.Writes outB) (hhalts : Halts b outB stops)
    (h : Talked a b outA outB stops s t d) :
    Reached a b outA outB s t d ∨ ∃ p, Reached a b outA outB s t p ∧ BrokenAt outA stops p d := by
  have hspent : ∃ i, Spent a b outA outB stops s t i d := by
    induction h with
    | refl => exact ⟨0, Spent.start⟩
    | tail _ htalk ih =>
        obtain ⟨i, hi⟩ := ih
        exact ⟨i + 1, hi.talk ha hb hhalts htalk⟩
  obtain ⟨i, ⟨hreached, -⟩ | ⟨p, hp, hbroken, -⟩⟩ := hspent
  · exact Or.inl hreached
  · exact Or.inr ⟨p, hp, hbroken⟩

/-- Where the right party has stopped, no more is read than where all is read. -/
theorem BrokenAt.reads_le (ha : a.Writes outA) (hb : b.Writes outB) (hq : Reached a b outA outB s t q)
    (hquiet : q.Quiet outA outB) (hp : Reached a b outA outB s t p) (h : BrokenAt outA stops p d) :
    d.leftRead + d.rightRead ≤ q.leftRead + q.rightRead := by
  have hbehind := hp.behind ha hb hq hquiet
  have hleft := hbehind.leftRead
  have houtput := hbehind.left.length_le
  have hright := h.rightRead
  rw [h.left] at hright
  rw [h.leftRead, hquiet.2]
  omega

/-- No run is longer than what there is to read, and the one stop. -/
theorem Talk.length_le (ha : a.Writes outA) (hb : b.Writes outB) (hhalts : Halts b outB stops)
    (hq : Reached a b outA outB s t q) (hquiet : q.Quiet outA outB) {run : Nat → Duplex σ τ β}
    (hstart : run 0 = Duplex.start a b s t) {n : Nat}
    (hrun : ∀ i < n, Talk a b outA outB stops (run i) (run (i + 1))) : n ≤ q.leftRead + q.rightRead + 1 := by
  have hspent : ∀ i ≤ n, Spent a b outA outB stops s t i (run i) := by
    intro i
    induction i with
    | zero =>
        intro _
        rw [hstart]
        exact Spent.start
    | succ i ih =>
        intro hi
        exact (ih (by omega)).talk ha hb hhalts (hrun i (by omega))
  rcases hspent n le_rfl with ⟨hreached, hle⟩ | ⟨p, hp, hbroken, hle⟩
  · have hbehind := hreached.behind ha hb hq hquiet
    have hleft := hbehind.leftRead
    have hright := hbehind.rightRead
    omega
  · have hreads := hbroken.reads_le ha hb hq hquiet hp
    omega

/-- **What is bound to happen still happens, unless the right party stops.** -/
theorem Inevitable.intended (ha : a.Writes outA) (hb : b.Writes outB) (hhalts : Halts b outB stops)
    (h : Inevitable a b outA outB s t q) : Intended a b outA outB stops s t q := by
  refine ⟨h.reached, h.quiet, fun d hd => ?_, fun run n hstart hrun => ?_⟩
  · rcases Talk.cases ha hb hhalts hd with hreached | hbroken
    · exact Or.inl ⟨hreached, h.converges d hreached⟩
    · exact Or.inr hbroken
  · exact Talk.length_le ha hb hhalts h.reached h.quiet hstart hrun

end Wire
