import Pyrite.Wire.Reactor
import Mathlib.Logic.Relation

set_option autoImplicit false

/-! # Two reactors that talk to each other

Each of two reactors reads what the other has written, in pieces of any size and at any time. What a party
has written depends only on how much it has read (`Consistent`), so the order of the reads does not matter:
if all bytes are read at some point of some run, then every run can be continued to that same point, and
none can go on beyond it (`Delivery.converges`, `Delivery.length_le`). -/

namespace Wire

open Relation

variable {σ τ β : Type}

/-- The two parties, each with the input it has not used, and how much of the other's output each has read. -/
structure Duplex (σ τ β : Type) where
  left : σ × List β
  right : τ × List β
  leftRead : Nat
  rightRead : Nat

section Deliveries

variable (a : Reactor σ β) (b : Reactor τ β) (outA : σ → List β) (outB : τ → List β)

/-- One of the parties reads some more of what the other has written. -/
inductive Delivery : Duplex σ τ β → Duplex σ τ β → Prop where
  | left {d : Duplex σ τ β} (n : Nat) (hsome : 0 < n) (hn : d.leftRead + n ≤ (outB d.right.1).length) :
      Delivery d { d with
        left := a.feed d.left (((outB d.right.1).drop d.leftRead).take n)
        leftRead := d.leftRead + n }
  | right {d : Duplex σ τ β} (n : Nat) (hsome : 0 < n) (hn : d.rightRead + n ≤ (outA d.left.1).length) :
      Delivery d { d with
        right := b.feed d.right (((outA d.left.1).drop d.rightRead).take n)
        rightRead := d.rightRead + n }

/-- Nothing has been read. -/
def Duplex.start (s : σ) (t : τ) : Duplex σ τ β := ⟨a.settle s [], b.settle t [], 0, 0⟩

/-- Everything has been read. -/
def Duplex.Quiet (d : Duplex σ τ β) : Prop :=
  d.leftRead = (outB d.right.1).length ∧ d.rightRead = (outA d.left.1).length

/-- Where a party is depends on how much it has read, and on nothing else. -/
structure Consistent (s : σ) (t : τ) (d : Duplex σ τ β) : Prop where
  left : d.left = a.settle s ((outB d.right.1).take d.leftRead)
  right : d.right = b.settle t ((outA d.left.1).take d.rightRead)
  leftRead : d.leftRead ≤ (outB d.right.1).length
  rightRead : d.rightRead ≤ (outA d.left.1).length

end Deliveries

variable {a : Reactor σ β} {b : Reactor τ β} {outA : σ → List β} {outB : τ → List β} {s : σ} {t : τ}
  {d d' q : Duplex σ τ β}

/-- Reading on from where one was. -/
theorem Reactor.Writes.read_on (ha : a.Writes outA) {p : σ × List β} {stream : List β} {k : Nat}
    (hp : p = a.settle s (stream.take k)) (n : Nat) :
    a.feed p ((stream.drop k).take n) = a.settle s (stream.take (k + n)) ∧
      outA p.1 <+: outA (a.settle s (stream.take (k + n))).1 := by
  have hfeed : a.feed p ((stream.drop k).take n) = a.settle s (stream.take (k + n)) := by
    rw [hp, ← Reactor.settle_append, ← List.take_add]
  rw [← hfeed]
  exact ⟨rfl, ha.settle p.1 _⟩

/-- What was read of a stream is not changed by what is written behind it. -/
theorem take_of_initial {xs ys : List β} (h : xs <+: ys) {k : Nat} (hk : k ≤ xs.length) :
    xs.take k = ys.take k := by
  obtain ⟨more, rfl⟩ := h
  rw [List.take_append_of_le_length hk]

theorem Consistent.start : Consistent a b outA outB s t (Duplex.start a b s t) :=
  ⟨by simp [Duplex.start], by simp [Duplex.start], Nat.zero_le _, Nat.zero_le _⟩

/-- **One read** keeps the parties consistent: what the other party had read is still there. -/
theorem Consistent.delivery (ha : a.Writes outA) (hb : b.Writes outB) (h : Consistent a b outA outB s t d)
    (hdelivery : Delivery a b outA outB d d') : Consistent a b outA outB s t d' := by
  cases hdelivery with
  | left n _ hn =>
      obtain ⟨hleft, hmore⟩ := ha.read_on h.left n
      refine ⟨hleft, ?_, hn, ?_⟩
      · rw [hleft, ← take_of_initial hmore h.rightRead]
        exact h.right
      · rw [hleft]
        exact le_trans h.rightRead hmore.length_le
  | right n _ hn =>
      obtain ⟨hright, hmore⟩ := hb.read_on h.right n
      refine ⟨?_, hright, ?_, hn⟩
      · rw [hright, ← take_of_initial hmore h.leftRead]
        exact h.left
      · rw [hright]
        exact le_trans h.leftRead hmore.length_le

/-- `d` can be reached by some sequence of reads. -/
def Reached (a : Reactor σ β) (b : Reactor τ β) (outA : σ → List β) (outB : τ → List β) (s : σ) (t : τ)
    (d : Duplex σ τ β) : Prop :=
  ReflTransGen (Delivery a b outA outB) (Duplex.start a b s t) d

theorem Reached.consistent (ha : a.Writes outA) (hb : b.Writes outB) (h : Reached a b outA outB s t d) :
    Consistent a b outA outB s t d := by
  induction h with
  | refl => exact Consistent.start
  | tail _ hdelivery ih => exact ih.delivery ha hb hdelivery

/-- A party reads all that there is, if there is anything. -/
theorem Reached.left_reads (ha : a.Writes outA) (hb : b.Writes outB) (h : Reached a b outA outB s t d) :
    Reached a b outA outB s t { d with
      left := a.feed d.left ((outB d.right.1).drop d.leftRead)
      leftRead := (outB d.right.1).length } := by
  have hconsistent := h.consistent ha hb
  rcases Nat.lt_or_eq_of_le hconsistent.leftRead with hlt | heq
  · have hdelivery : Delivery a b outA outB d _ :=
      .left ((outB d.right.1).length - d.leftRead) (by omega) (by omega)
    rw [List.take_of_length_le (by rw [List.length_drop]), Nat.add_sub_cancel' hlt.le] at hdelivery
    exact h.tail hdelivery
  · have hleft : a.feed d.left [] = d.left := by
      rw [hconsistent.left]
      exact Reactor.feed_nil s _
    rw [← heq, List.drop_of_length_le heq.ge, hleft]
    exact h

theorem Reached.right_reads (ha : a.Writes outA) (hb : b.Writes outB) (h : Reached a b outA outB s t d) :
    Reached a b outA outB s t { d with
      right := b.feed d.right ((outA d.left.1).drop d.rightRead)
      rightRead := (outA d.left.1).length } := by
  have hconsistent := h.consistent ha hb
  rcases Nat.lt_or_eq_of_le hconsistent.rightRead with hlt | heq
  · have hdelivery : Delivery a b outA outB d _ :=
      .right ((outA d.left.1).length - d.rightRead) (by omega) (by omega)
    rw [List.take_of_length_le (by rw [List.length_drop]), Nat.add_sub_cancel' hlt.le] at hdelivery
    exact h.tail hdelivery
  · have hright : b.feed d.right [] = d.right := by
      rw [hconsistent.right]
      exact Reactor.feed_nil t _
    rw [← heq, List.drop_of_length_le heq.ge, hright]
    exact h

/-- `d` is not ahead of `q`. -/
structure Behind (outA : σ → List β) (outB : τ → List β) (d q : Duplex σ τ β) : Prop where
  leftRead : d.leftRead ≤ q.leftRead
  rightRead : d.rightRead ≤ q.rightRead
  left : outA d.left.1 <+: outA q.left.1
  right : outB d.right.1 <+: outB q.right.1

/-- Nothing can be reached that is ahead of a point where all has been read. -/
theorem Reached.behind (ha : a.Writes outA) (hb : b.Writes outB) (h : Reached a b outA outB s t d)
    (hq : Reached a b outA outB s t q) (hquiet : q.Quiet outA outB) : Behind outA outB d q := by
  have hcq := hq.consistent ha hb
  induction h with
  | refl =>
      refine ⟨Nat.zero_le _, Nat.zero_le _, ?_, ?_⟩
      · rw [hcq.left]
        exact ha.mono s (List.nil_prefix)
      · rw [hcq.right]
        exact hb.mono t (List.nil_prefix)
  | @tail d d' hd hdelivery ih =>
      have hcd' := (Reached.consistent ha hb hd).delivery ha hb hdelivery
      cases hdelivery with
      | left n _ hn =>
          -- the party has read a part of what is read in `q`, so it has written a part of what is written there
          have hread : d.leftRead + n ≤ q.leftRead := by
            rw [hquiet.1]
            exact le_trans hn ih.right.length_le
          refine ⟨hread, ih.rightRead, ?_, ih.right⟩
          rw [hcd'.left, hcq.left]
          refine ha.mono s ?_
          rw [take_of_initial ih.right hn]
          exact List.take_prefix_take_left hread
      | right n _ hn =>
          have hread : d.rightRead + n ≤ q.rightRead := by
            rw [hquiet.2]
            exact le_trans hn ih.left.length_le
          refine ⟨ih.leftRead, hread, ih.left, ?_⟩
          rw [hcd'.right, hcq.right]
          refine hb.mono t ?_
          rw [take_of_initial ih.left hn]
          exact List.take_prefix_take_left hread

/-- There is only one point where all has been read. -/
theorem Reached.unique (ha : a.Writes outA) (hb : b.Writes outB) (h : Reached a b outA outB s t d)
    (hd : d.Quiet outA outB) (hq : Reached a b outA outB s t q) (hquiet : q.Quiet outA outB) : d = q := by
  have hdq := h.behind ha hb hq hquiet
  have hqd := hq.behind ha hb h hd
  have hleft : d.leftRead = q.leftRead := le_antisymm hdq.leftRead hqd.leftRead
  have hright : d.rightRead = q.rightRead := le_antisymm hdq.rightRead hqd.rightRead
  have houtA := hdq.left.eq_of_length (le_antisymm hdq.left.length_le hqd.left.length_le)
  have houtB := hdq.right.eq_of_length (le_antisymm hdq.right.length_le hqd.right.length_le)
  have hcd := h.consistent ha hb
  have hcq := hq.consistent ha hb
  have hl : d.left = q.left := by rw [hcd.left, hcq.left, houtB, hleft]
  have hr : d.right = q.right := by rw [hcd.right, hcq.right, houtA, hright]
  obtain ⟨dl, dr, dlr, drr⟩ := d
  obtain ⟨ql, qr, qlr, qrr⟩ := q
  simp only at hl hr hleft hright
  rw [hl, hr, hleft, hright]

/-- Where something is unread, someone can read on. -/
theorem Consistent.progress (h : Consistent a b outA outB s t d) (hd : ¬ d.Quiet outA outB) :
    ∃ d', Delivery a b outA outB d d' := by
  by_cases hleft : d.leftRead < (outB d.right.1).length
  · exact ⟨_, .left 1 (by omega) (by omega)⟩
  · have hright : d.rightRead < (outA d.left.1).length := by
      rcases Nat.lt_or_ge d.rightRead (outA d.left.1).length with hlt | hge
      · exact hlt
      · exact absurd ⟨le_antisymm h.leftRead (by omega), le_antisymm h.rightRead hge⟩ hd
    exact ⟨_, .right 1 (by omega) (by omega)⟩

theorem Delivery.reads (h : Delivery a b outA outB d d') :
    d.leftRead + d.rightRead < d'.leftRead + d'.rightRead := by
  cases h with
  | left n hsome _ =>
      simp only
      omega
  | right n hsome _ =>
      simp only
      omega

/-- **Every run comes to the same end.** -/
theorem Delivery.converges (ha : a.Writes outA) (hb : b.Writes outB) (hq : Reached a b outA outB s t q)
    (hquiet : q.Quiet outA outB) (h : Reached a b outA outB s t d) :
    ReflTransGen (Delivery a b outA outB) d q := by
  -- by induction on how much is still to be read
  induction hn : q.leftRead + q.rightRead - (d.leftRead + d.rightRead) using Nat.strongRecOn generalizing d with
  | ind n ih =>
      by_cases hd : d.Quiet outA outB
      · rw [h.unique ha hb hd hq hquiet]
      · obtain ⟨d', hdelivery⟩ := (h.consistent ha hb).progress hd
        have hreads := hdelivery.reads
        have hbehind := Reached.behind ha hb (h.tail hdelivery) hq hquiet
        have hleft := hbehind.leftRead
        have hright := hbehind.rightRead
        exact ReflTransGen.head hdelivery (ih _ (by omega) (h.tail hdelivery) rfl)

/-- No run is longer than what there is to read. -/
theorem Delivery.length_le (ha : a.Writes outA) (hb : b.Writes outB) (hq : Reached a b outA outB s t q)
    (hquiet : q.Quiet outA outB) {run : Nat → Duplex σ τ β} (hstart : run 0 = Duplex.start a b s t) {n : Nat}
    (hrun : ∀ i < n, Delivery a b outA outB (run i) (run (i + 1))) : n ≤ q.leftRead + q.rightRead := by
  have hreached : ∀ i ≤ n, Reached a b outA outB s t (run i) ∧ i ≤ (run i).leftRead + (run i).rightRead := by
    intro i
    induction i with
    | zero =>
        intro _
        rw [hstart]
        exact ⟨ReflTransGen.refl, Nat.zero_le _⟩
    | succ i ih =>
        intro hi
        obtain ⟨hreached, hle⟩ := ih (by omega)
        have hdelivery := hrun i (by omega)
        have hreads := hdelivery.reads
        exact ⟨hreached.tail hdelivery, by omega⟩
  obtain ⟨hn, hle⟩ := hreached n le_rfl
  have hbehind := hn.behind ha hb hq hquiet
  exact le_trans hle (Nat.add_le_add hbehind.leftRead hbehind.rightRead)

/-- Every run, whatever the order and the size of its reads, can be continued to `q` and not beyond it, and
    none goes on for ever. -/
structure Inevitable (a : Reactor σ β) (b : Reactor τ β) (outA : σ → List β) (outB : τ → List β) (s : σ) (t : τ)
    (q : Duplex σ τ β) : Prop where
  reached : Reached a b outA outB s t q
  quiet : q.Quiet outA outB
  converges : ∀ d, Reached a b outA outB s t d → ReflTransGen (Delivery a b outA outB) d q
  bounded : ∀ (run : Nat → Duplex σ τ β) (n : Nat), run 0 = Duplex.start a b s t →
    (∀ i < n, Delivery a b outA outB (run i) (run (i + 1))) → n ≤ q.leftRead + q.rightRead

theorem inevitable (ha : a.Writes outA) (hb : b.Writes outB) (hq : Reached a b outA outB s t q)
    (hquiet : q.Quiet outA outB) : Inevitable a b outA outB s t q :=
  ⟨hq, hquiet, fun _ h => Delivery.converges ha hb hq hquiet h,
    fun _ _ hstart hrun => Delivery.length_le ha hb hq hquiet hstart hrun⟩

/-- What no message changes, a whole run does not change. -/
theorem Delivery.keeps_left {P : σ → Prop}
    (hP : ∀ s input s' rest, P s → a.next s input = some (s', rest) → P s')
    (h : ReflTransGen (Delivery a b outA outB) d q) (hd : P d.left.1) : P q.left.1 := by
  induction h with
  | refl => exact hd
  | tail _ hdelivery ih =>
      cases hdelivery with
      | left n _ _ => exact Reactor.settle_keeps (P := fun s _ => P s) hP ih
      | right n _ _ => exact ih

theorem Delivery.keeps_right {P : τ → Prop}
    (hP : ∀ t input t' rest, P t → b.next t input = some (t', rest) → P t')
    (h : ReflTransGen (Delivery a b outA outB) d q) (hd : P d.right.1) : P q.right.1 := by
  induction h with
  | refl => exact hd
  | tail _ hdelivery ih =>
      cases hdelivery with
      | left n _ _ => exact ih
      | right n _ _ => exact Reactor.settle_keeps (P := fun t _ => P t) hP ih

end Wire
