import Mathlib.Tactic

set_option autoImplicit false

/-! # Runs that can panic

A stateful computation `Exec ε σ α` ends in one of four ways: with a value, with a typed error, by
using a partial primitive outside its domain (`panic`), or by exhausting the bound of a loop
(`diverge`). The state survives a typed error, so what a failed run has consumed can be talked about;
it does not survive the two abnormal endings.

`Outcome.Satisfies` is the specification side: a postcondition for values, one for typed errors, and
`False` for the abnormal endings. A specification proved in this form therefore always includes the
absence of panics and of unbounded loops. The two loop forms below come with their invariant rules;
the unbounded form also asks for a measure. -/

namespace Wire

variable {ε ε' σ τ α β : Type}

/-- How a run ends. -/
inductive Outcome (ε σ α : Type) where
  | ok (value : α) (state : σ)
  | error (error : ε) (state : σ)
  /-- A partial primitive was used outside its domain. -/
  | panic
  /-- A loop exceeded its iteration bound. -/
  | diverge
  deriving DecidableEq, Repr

/-- A computation over a state `σ` that may fail with an `ε`. -/
def Exec (ε σ α : Type) : Type := σ → Outcome ε σ α

namespace Outcome

/-- Continue a run that ended normally; every other ending is final. -/
def bind : Outcome ε σ α → (α → Exec ε σ β) → Outcome ε σ β
  | ok a s, f => f a s
  | error e s, _ => error e s
  | panic, _ => panic
  | diverge, _ => diverge

@[simp] theorem bind_ok (a : α) (s : σ) (f : α → Exec ε σ β) : (ok a s).bind f = f a s := rfl
@[simp] theorem bind_error (e : ε) (s : σ) (f : α → Exec ε σ β) :
    (error e s).bind f = error e s := rfl
@[simp] theorem bind_panic (f : α → Exec ε σ β) : panic.bind f = panic := rfl
@[simp] theorem bind_diverge (f : α → Exec ε σ β) : diverge.bind f = diverge := rfl

/-- `Q` holds of a normal ending and `E` of a typed error, and there is no other ending. -/
def Satisfies (o : Outcome ε σ α) (Q : α → σ → Prop) (E : ε → σ → Prop) : Prop :=
  match o with
  | ok a s => Q a s
  | error e s => E e s
  | panic => False
  | diverge => False

@[simp] theorem satisfies_ok (a : α) (s : σ) (Q : α → σ → Prop) (E : ε → σ → Prop) :
    (ok a s : Outcome ε σ α).Satisfies Q E ↔ Q a s := Iff.rfl
@[simp] theorem satisfies_error (e : ε) (s : σ) (Q : α → σ → Prop) (E : ε → σ → Prop) :
    (error e s : Outcome ε σ α).Satisfies Q E ↔ E e s := Iff.rfl

theorem Satisfies.mono {o : Outcome ε σ α} {Q Q' : α → σ → Prop} {E E' : ε → σ → Prop}
    (h : o.Satisfies Q E) (hQ : ∀ a s, Q a s → Q' a s) (hE : ∀ e s, E e s → E' e s) :
    o.Satisfies Q' E' := by
  cases o with
  | ok a s => exact hQ a s h
  | error e s => exact hE e s h
  | panic => exact h
  | diverge => exact h

/-- A specification of any kind excludes the abnormal endings. -/
theorem Satisfies.ends {o : Outcome ε σ α} {Q : α → σ → Prop} {E : ε → σ → Prop}
    (h : o.Satisfies Q E) : o.Satisfies (fun _ _ => True) (fun _ _ => True) :=
  h.mono (fun _ _ _ => trivial) (fun _ _ _ => trivial)

/-- Sequencing rule: the continuation is specified from every value the first part may return. -/
theorem Satisfies.bind {o : Outcome ε σ α} {f : α → Exec ε σ β} {Q : α → σ → Prop}
    {Q' : β → σ → Prop} {E : ε → σ → Prop} (h : o.Satisfies Q E)
    (hf : ∀ a s, Q a s → (f a s).Satisfies Q' E) : (o.bind f).Satisfies Q' E := by
  cases o with
  | ok a s => exact hf a s h
  | error e s => exact h
  | panic => exact h
  | diverge => exact h

/-- The sequencing rule with the errors of the first part weakened on the way. -/
theorem Satisfies.seq {o : Outcome ε σ α} {f : α → Exec ε σ β} {Q : α → σ → Prop}
    {Q' : β → σ → Prop} {E E' : ε → σ → Prop} (h : o.Satisfies Q E) (hE : ∀ e s, E e s → E' e s)
    (hf : ∀ a s, Q a s → (f a s).Satisfies Q' E') : (o.bind f).Satisfies Q' E' :=
  (h.mono (fun _ _ hQ => hQ) hE).bind hf

/-- What a specification says of a run that is known to have ended normally. -/
theorem Satisfies.of_ok {o : Outcome ε σ α} {Q : α → σ → Prop} {E : ε → σ → Prop} {a : α} {s : σ}
    (h : o.Satisfies Q E) (ho : o = ok a s) : Q a s := by
  subst ho
  exact h

/-- A sequence that ends normally has gone through both parts. -/
theorem bind_eq_ok {o : Outcome ε σ α} {f : α → Exec ε σ β} {b : β} {s' : σ} (h : o.bind f = ok b s') :
    ∃ a s, o = ok a s ∧ f a s = ok b s' := by
  cases o with
  | ok a s => exact ⟨a, s, rfl, h⟩
  | error e s => cases h
  | panic => cases h
  | diverge => cases h

theorem Satisfies.exists {o : Outcome ε σ α} {Q : α → σ → Prop} {E : ε → σ → Prop}
    (h : o.Satisfies Q E) : (∃ a s, o = ok a s) ∨ ∃ e s, o = error e s := by
  cases o with
  | ok a s => exact Or.inl ⟨a, s, rfl⟩
  | error e s => exact Or.inr ⟨e, s, rfl⟩
  | panic => exact h.elim
  | diverge => exact h.elim

end Outcome

namespace Exec

instance : Monad (Exec ε σ) where
  pure a := fun s => .ok a s
  bind m f := fun s => (m s).bind f

/-- Fail with a typed error, keeping the state. -/
def throw (e : ε) : Exec ε σ α := fun s => .error e s

/-- Use a partial primitive outside its domain. -/
def panic : Exec ε σ α := fun _ => .panic

/-- Lift a fallible computation that does not touch the state. -/
def ofExcept : Except ε α → Exec ε σ α
  | .ok a => pure a
  | .error e => throw e

/-- The current state. -/
def state : Exec ε σ σ := fun s => .ok s s

def setState (s : σ) : Exec ε σ Unit := fun _ => .ok () s

def modify (f : σ → σ) : Exec ε σ Unit := fun s => .ok () (f s)

@[simp] theorem pure_apply (a : α) (s : σ) : (pure a : Exec ε σ α) s = .ok a s := rfl
@[simp] theorem bind_apply (m : Exec ε σ α) (f : α → Exec ε σ β) (s : σ) :
    (m >>= f) s = (m s).bind f := rfl
@[simp] theorem map_apply (m : Exec ε σ α) (f : α → β) (s : σ) :
    (f <$> m) s = (m s).bind fun a => pure (f a) := rfl
@[simp] theorem throw_apply (e : ε) (s : σ) : (throw e : Exec ε σ α) s = .error e s := rfl
@[simp] theorem ofExcept_ok (a : α) : (ofExcept (.ok a) : Exec ε σ α) = pure a := rfl
@[simp] theorem ofExcept_error (e : ε) : (ofExcept (.error e) : Exec ε σ α) = throw e := rfl
@[simp] theorem state_apply (s : σ) : (state : Exec ε σ σ) s = .ok s s := rfl
@[simp] theorem modify_apply (f : σ → σ) (s : σ) : (modify f : Exec ε σ Unit) s = .ok () (f s) := rfl
@[simp] theorem setState_apply (s s' : σ) : (setState s' : Exec ε σ Unit) s = .ok () s' := rfl
@[simp] theorem ite_apply (c : Prop) [Decidable c] (m n : Exec ε σ α) (s : σ) :
    (if c then m else n) s = if c then m s else n s := by
  split <;> rfl

/-- Run `m` on a component of the state. -/
def zoom (get : σ → τ) (set : τ → σ → σ) (m : Exec ε τ α) : Exec ε σ α := fun s =>
  match m (get s) with
  | .ok a t => .ok a (set t s)
  | .error e t => .error e (set t s)
  | .panic => .panic
  | .diverge => .diverge

theorem zoom_spec {get : σ → τ} {set : τ → σ → σ} {m : Exec ε τ α} {s : σ} {Q : α → τ → Prop}
    {Q' : α → σ → Prop} {E : ε → τ → Prop} {E' : ε → σ → Prop} (h : (m (get s)).Satisfies Q E)
    (hQ : ∀ a t, Q a t → Q' a (set t s)) (hE : ∀ e t, E e t → E' e (set t s)) :
    (zoom get set m s).Satisfies Q' E' := by
  unfold zoom
  cases hm : m (get s) with
  | ok a t => rw [hm] at h; exact hQ a t h
  | error e t => rw [hm] at h; exact hE e t h
  | panic => rw [hm] at h; exact h
  | diverge => rw [hm] at h; exact h

/-- Run `m` on a state of its own. The outer state is untouched; the local state is returned beside
    the value. -/
def locally (m : Exec ε τ α) (t : τ) : Exec ε σ (α × τ) := fun s =>
  match m t with
  | .ok a t' => .ok (a, t') s
  | .error e _ => .error e s
  | .panic => .panic
  | .diverge => .diverge

theorem locally_eq_ok {m : Exec ε τ α} {t t' : τ} {s s' : σ} {a : α} (h : locally m t s = .ok (a, t') s') :
    m t = .ok a t' := by
  unfold locally at h
  cases hm : m t with
  | ok b t₁ =>
      rw [hm] at h
      obtain ⟨hpair, -⟩ := Outcome.ok.inj h
      obtain ⟨rfl, rfl⟩ := Prod.mk.inj hpair
      rfl
  | error e t₁ => rw [hm] at h; cases h
  | panic => rw [hm] at h; cases h
  | diverge => rw [hm] at h; cases h

theorem locally_of_ok {m : Exec ε τ α} {t t' : τ} {a : α} (h : m t = .ok a t') :
    (locally m t : Exec ε σ (α × τ)) = pure (a, t') := by
  funext s
  rw [locally, h]
  rfl

/-- Run `m`, converting its errors. -/
def mapError (convert : ε → ε') (m : Exec ε σ α) : Exec ε' σ α := fun s =>
  match m s with
  | .ok a s' => .ok a s'
  | .error e s' => .error (convert e) s'
  | .panic => .panic
  | .diverge => .diverge

theorem mapError_spec {convert : ε → ε'} {m : Exec ε σ α} {s : σ} {Q : α → σ → Prop}
    {E : ε' → σ → Prop} (h : (m s).Satisfies Q (fun e s' => E (convert e) s')) :
    (mapError convert m s).Satisfies Q E := by
  unfold mapError
  cases hm : m s with
  | ok a s' => rw [hm] at h; exact h
  | error e s' => rw [hm] at h; exact h
  | panic => rw [hm] at h; exact h
  | diverge => rw [hm] at h; exact h

/-! ## Total computations -/

/-- From every state the run ends with a value or a typed error. -/
def Total (m : Exec ε σ α) : Prop := ∀ s, (m s).Satisfies (fun _ _ => True) (fun _ _ => True)

theorem total_pure (a : α) : (pure a : Exec ε σ α).Total := fun _ => trivial

theorem total_throw (e : ε) : (throw e : Exec ε σ α).Total := fun _ => trivial

theorem Total.bind {m : Exec ε σ α} {f : α → Exec ε σ β} (hm : m.Total) (hf : ∀ a, (f a).Total) :
    (m >>= f).Total := by
  intro s
  exact (hm s).bind fun a s' _ => hf a s'

theorem Total.ite {c : Prop} [Decidable c] {m n : Exec ε σ α} (hm : m.Total) (hn : n.Total) :
    (if c then m else n).Total := by
  split
  · exact hm
  · exact hn

/-! ## Computations that leave the state alone -/

/-- The state is neither read nor changed, whatever the outcome. -/
def Stateless (m : Exec ε σ α) : Prop := ∃ r : Except ε α, m = ofExcept r

theorem stateless_pure (a : α) : (pure a : Exec ε σ α).Stateless := ⟨.ok a, rfl⟩

theorem stateless_throw (e : ε) : (throw e : Exec ε σ α).Stateless := ⟨.error e, rfl⟩

theorem Stateless.bind {m : Exec ε σ α} {f : α → Exec ε σ β} (hm : m.Stateless)
    (hf : ∀ a, (f a).Stateless) : (m >>= f).Stateless := by
  obtain ⟨r, rfl⟩ := hm
  cases r with
  | ok a => exact hf a
  | error e => exact ⟨.error e, rfl⟩

theorem Stateless.ite {c : Prop} [Decidable c] {m n : Exec ε σ α} (hm : m.Stateless)
    (hn : n.Stateless) : (if c then m else n).Stateless := by
  split
  · exact hm
  · exact hn

theorem stateless_locally {m : Exec ε τ α} (hm : m.Total) (t : τ) :
    (locally m t : Exec ε σ (α × τ)).Stateless := by
  have hmt := hm t
  unfold locally
  cases h : m t with
  | ok a t' => exact ⟨.ok (a, t'), rfl⟩
  | error e t' => exact ⟨.error e, rfl⟩
  | panic => rw [h] at hmt; exact hmt.elim
  | diverge => rw [h] at hmt; exact hmt.elim

theorem Stateless.total {m : Exec ε σ α} (hm : m.Stateless) : m.Total := by
  obtain ⟨r, rfl⟩ := hm
  intro s
  cases r <;> trivial

/-! ## Counted loops -/

/-- Run `m` exactly `n` times and collect the values. -/
def times (m : Exec ε σ α) : Nat → Exec ε σ (List α)
  | 0 => pure []
  | n + 1 => do
    let a ← m
    let as ← times m n
    pure (a :: as)

/-- Invariant rule for counted loops: `inv as` describes the state after `as` was collected. -/
theorem times_spec (inv : List α → σ → Prop) {m : Exec ε σ α} {E : ε → σ → Prop}
    (step : ∀ as s, inv as s → (m s).Satisfies (fun a s' => inv (as ++ [a]) s') E) :
    ∀ (n : Nat) (as : List α) (s : σ), inv as s →
      (times m n s).Satisfies (fun bs s' => bs.length = n ∧ inv (as ++ bs) s') E := by
  intro n
  induction n with
  | zero =>
      intro as s hs
      simpa [times] using hs
  | succ n ih =>
      intro as s hs
      refine (step as s hs).bind fun a s₁ hs₁ => ?_
      refine (ih (as ++ [a]) s₁ hs₁).bind fun bs s₂ hs₂ => ?_
      simpa [List.append_assoc] using hs₂

theorem Total.times {m : Exec ε σ α} (hm : m.Total) (n : Nat) : (times m n).Total := by
  induction n with
  | zero => exact total_pure []
  | succ n ih => exact hm.bind fun a => ih.bind fun as => total_pure (a :: as)

/-! ## Unbounded loops -/

/-- Iterate `body` until it returns a result (`.inr`), for at most `fuel` rounds. -/
def iterate (body : β → Exec ε σ (β ⊕ α)) : Nat → β → Exec ε σ α
  | 0, _ => fun _ => .diverge
  | fuel + 1, b => do
    match ← body b with
    | .inl b' => iterate body fuel b'
    | .inr a => pure a

/-- A `loop { .. }` whose rounds each lower `bound` of the state. -/
def loop (bound : σ → Nat) (body : β → Exec ε σ (β ⊕ α)) (b : β) : Exec ε σ α := fun s =>
  iterate body (bound s + 1) b s

/-- Invariant rule for unbounded loops. The measure makes the rule a total-correctness one: under
    it the iteration bound is never reached. -/
theorem iterate_spec (inv : β → σ → Prop) (bound : σ → Nat) {body : β → Exec ε σ (β ⊕ α)}
    {Q : α → σ → Prop} {E : ε → σ → Prop}
    (step : ∀ b s, inv b s → (body b s).Satisfies
      (fun r s' => r.elim (fun b' => inv b' s' ∧ bound s' < bound s) (fun a => Q a s')) E) :
    ∀ (fuel : Nat) (b : β) (s : σ), inv b s → bound s < fuel →
      (iterate body fuel b s).Satisfies Q E := by
  intro fuel
  induction fuel with
  | zero => intro b s _ hfuel; omega
  | succ fuel ih =>
      intro b s hb hfuel
      refine (step b s hb).bind fun r s' hr => ?_
      cases r with
      | inl b' => exact ih b' s' hr.1 (by have := hr.2; omega)
      | inr a => exact hr

/-- Any iteration bound that the measure allows gives the same run. -/
theorem iterate_fuel (bound : σ → Nat) {body : β → Exec ε σ (β ⊕ α)}
    (step : ∀ b s b' s', body b s = .ok (.inl b') s' → bound s' < bound s) :
    ∀ (fuel fuel' : Nat) (b : β) (s : σ), bound s < fuel → bound s < fuel' →
      iterate body fuel b s = iterate body fuel' b s := by
  intro fuel
  induction fuel with
  | zero => intro fuel' b s hfuel; omega
  | succ fuel ih =>
      intro fuel' b s hfuel hfuel'
      obtain ⟨fuel', rfl⟩ : ∃ k, fuel' = k + 1 := ⟨fuel' - 1, by omega⟩
      simp only [iterate, bind_apply]
      cases hbody : body b s with
      | ok r s' =>
          cases r with
          | inl b' =>
              have hlt := step b s b' s' hbody
              exact ih fuel' b' s' (by omega) (by omega)
          | inr a => rfl
      | error e s' => rfl
      | panic => rfl
      | diverge => rfl

/-- A loop whose rounds lower the measure unfolds like the source's `loop`. -/
theorem loop_eq (bound : σ → Nat) {body : β → Exec ε σ (β ⊕ α)}
    (step : ∀ b s b' s', body b s = .ok (.inl b') s' → bound s' < bound s) (b : β) (s : σ) :
    loop bound body b s = (body b s).bind (Sum.elim (loop bound body) pure) := by
  rw [loop, iterate, bind_apply]
  cases hbody : body b s with
  | ok r s' =>
      cases r with
      | inl b' =>
          have hlt := step b s b' s' hbody
          exact iterate_fuel bound step _ _ b' s' hlt (Nat.lt_succ_self _)
      | inr a => rfl
  | error e s' => rfl
  | panic => rfl
  | diverge => rfl

theorem loop_spec (inv : β → σ → Prop) (bound : σ → Nat) {body : β → Exec ε σ (β ⊕ α)}
    {Q : α → σ → Prop} {E : ε → σ → Prop}
    (step : ∀ b s, inv b s → (body b s).Satisfies
      (fun r s' => r.elim (fun b' => inv b' s' ∧ bound s' < bound s) (fun a => Q a s')) E)
    (b : β) (s : σ) (hb : inv b s) : (loop bound body b s).Satisfies Q E :=
  iterate_spec inv bound step (bound s + 1) b s hb (Nat.lt_succ_self _)

end Exec

end Wire
