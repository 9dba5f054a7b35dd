import Mathlib.Data.List.Infix
import Mathlib.Logic.Relation

set_option autoImplicit false

/-! # Reactors

A reactor takes messages off the front of its input as they become complete. Its input arrives in chunks,
and after each chunk it takes every message that is complete by then (`feed`). The two laws of a reactor are
that a message which is complete stays the same message when more input arrives, and that it cannot take
messages for ever. From them follows that the cuts between the chunks do not matter (`feedAll_eq_feed`). -/

namespace Wire

/-- A machine that is driven by the messages at the front of its input. -/
structure Reactor (σ β : Type) where
  /-- Take a message: the state after it, and the input behind it. `none` while it is not complete. -/
  next : σ → List β → Option (σ × List β)
  /-- How many messages can be taken beyond those that use up input. -/
  rank : σ → Nat
  lowers : ∀ {s s' : σ} {input rest : List β}, next s input = some (s', rest) →
    rank s' + rest.length < rank s + input.length
  stable : ∀ {s s' : σ} {input rest : List β}, next s input = some (s', rest) →
    ∀ more, next s (input ++ more) = some (s', rest ++ more)

namespace Reactor

variable {σ β : Type} (m : Reactor σ β)

/-- Take at most `n` messages. -/
def settleFor : Nat → σ → List β → σ × List β
  | 0, s, input => (s, input)
  | n + 1, s, input =>
    match m.next s input with
    | none => (s, input)
    | some (s', rest) => settleFor n s' rest

/-- Take every message that is complete. -/
def settle (s : σ) (input : List β) : σ × List β := m.settleFor (m.rank s + input.length) s input

/-- More input arrives. -/
def feed (p : σ × List β) (chunk : List β) : σ × List β := m.settle p.1 (p.2 ++ chunk)

def feedAll (p : σ × List β) (chunks : List (List β)) : σ × List β := chunks.foldl m.feed p

variable {m} {s s' : σ} {input rest : List β}

theorem settleFor_of_none (h : m.next s input = none) (n : Nat) : m.settleFor n s input = (s, input) := by
  cases n with
  | zero => rfl
  | succ n => rw [settleFor, h]

/-- Any number of messages that the laws allow gives the same. -/
theorem settleFor_enough (n n' : Nat) (hn : m.rank s + input.length ≤ n) (hn' : m.rank s + input.length ≤ n') :
    m.settleFor n s input = m.settleFor n' s input := by
  induction n generalizing n' s input with
  | zero =>
      -- nothing is left to take
      cases h : m.next s input with
      | none => rw [settleFor_of_none h, settleFor_of_none h]
      | some p =>
          have hlt := m.lowers h
          omega
  | succ n ih =>
      cases h : m.next s input with
      | none => rw [settleFor_of_none h, settleFor_of_none h]
      | some p =>
          have hlt := m.lowers h
          obtain ⟨k, rfl⟩ : ∃ k, n' = k + 1 := ⟨n' - 1, by omega⟩
          simp only [settleFor, h]
          exact ih k (by omega) (by omega)

theorem settle_of_none (h : m.next s input = none) : m.settle s input = (s, input) :=
  settleFor_of_none h _

theorem settle_of_some (h : m.next s input = some (s', rest)) : m.settle s input = m.settle s' rest := by
  have hlt := m.lowers h
  obtain ⟨n, hn⟩ : ∃ n, m.rank s + input.length = n + 1 := ⟨m.rank s + input.length - 1, by omega⟩
  rw [settle, hn, settleFor, h]
  exact settleFor_enough n _ (by omega) le_rfl

/-- Induction over the messages that are taken. -/
theorem settle_induction {P : σ → List β → σ × List β → Prop}
    (hnone : ∀ s input, m.next s input = none → P s input (s, input))
    (hsome : ∀ s input s' rest, m.next s input = some (s', rest) → P s' rest (m.settle s' rest) →
      P s input (m.settle s' rest)) (s : σ) (input : List β) : P s input (m.settle s input) := by
  induction hn : m.rank s + input.length using Nat.strongRecOn generalizing s input with
  | ind n ih =>
      cases h : m.next s input with
      | none =>
          rw [settle_of_none h]
          exact hnone s input h
      | some p =>
          rw [settle_of_some h]
          exact hsome s input p.1 p.2 h (ih _ (hn ▸ m.lowers h) p.1 p.2 rfl)

/-- Afterwards the message at the front is not complete. -/
theorem next_settle (s : σ) (input : List β) : m.next (m.settle s input).1 (m.settle s input).2 = none :=
  settle_induction (P := fun _ _ p => m.next p.1 p.2 = none) (fun _ _ h => h) (fun _ _ _ _ _ ih => ih) s input

/-- What each message keeps, holds at the end. -/
theorem settle_keeps {P : σ → List β → Prop}
    (hstep : ∀ s input s' rest, P s input → m.next s input = some (s', rest) → P s' rest) (h : P s input) :
    P (m.settle s input).1 (m.settle s input).2 := by
  revert h
  exact settle_induction (P := fun s input p => P s input → P p.1 p.2) (fun _ _ _ h => h)
    (fun s input s' rest hnext ih h => ih (hstep s input s' rest h hnext)) s input

/-- What was complete is taken first. -/
theorem settle_append (s : σ) (input more : List β) :
    m.settle s (input ++ more) = m.feed (m.settle s input) more := by
  refine settle_induction (P := fun s input p => m.settle s (input ++ more) = m.feed p more) ?_ ?_ s input
  · intro s input _
    rfl
  · intro s input s' rest hnext ih
    rw [settle_of_some (m.stable hnext more)]
    exact ih

theorem feed_nil (s : σ) (input : List β) : m.feed (m.settle s input) [] = m.settle s input := by
  rw [← settle_append, List.append_nil]

/-- Some messages are taken, one after the other. -/
def Takes (m : Reactor σ β) (p q : σ × List β) : Prop :=
  Relation.ReflTransGen (fun p q => m.next p.1 p.2 = some q) p q

/-- Whoever has taken some of the messages that are complete goes on to take the others. -/
theorem Takes.settle_eq {p q : σ × List β} (h : m.Takes p q) : m.settle p.1 p.2 = m.settle q.1 q.2 := by
  induction h with
  | refl => rfl
  | tail _ hnext ih => rw [ih, settle_of_some hnext]

/-- **The cuts do not matter.** -/
theorem feedAll_eq_feed (s : σ) (input : List β) (chunks : List (List β)) :
    m.feedAll (m.settle s input) chunks = m.settle s (input ++ chunks.flatten) := by
  induction chunks generalizing input with
  | nil =>
      rw [List.flatten_nil, List.append_nil]
      rfl
  | cons chunk chunks ih =>
      rw [List.flatten_cons, ← List.append_assoc, ← ih, settle_append]
      rfl

/-! ## Output

A reactor may write as it goes; `out` is what it has written so far. -/

/-- Nothing that was written is taken back. -/
def Writes (m : Reactor σ β) (out : σ → List β) : Prop :=
  ∀ s input s' rest, m.next s input = some (s', rest) → out s <+: out s'

theorem Writes.settle {out : σ → List β} (h : m.Writes out) (s : σ) (input : List β) :
    out s <+: out (m.settle s input).1 :=
  settle_induction (P := fun s _ p => out s <+: out p.1) (fun s _ _ => List.prefix_refl (out s))
    (fun s input s' rest hnext ih => (h s input s' rest hnext).trans ih) s input

/-- Who has read more has written more. -/
theorem Writes.mono {out : σ → List β} (h : m.Writes out) (s : σ) {input input' : List β}
    (hinput : input <+: input') : out (m.settle s input).1 <+: out (m.settle s input').1 := by
  obtain ⟨more, rfl⟩ := hinput
  rw [settle_append]
  exact h.settle (m.settle s input).1 ((m.settle s input).2 ++ more)

end Reactor

end Wire
