import Pyrite.Wire.Host

set_option autoImplicit false

/-! # Partial correctness

`Outcome.Respects` is `Outcome.Satisfies` without the claim that a run ends: nothing is said of a run that
panics or diverges. It is the right form for a property that a loop keeps for as long as it runs, since
its loop rules ask for no measure; together with a total specification it gives back the total form
(`Respects.satisfies`).

`Exec.OnlyRaises` is the special case that is about the errors alone. -/

namespace Wire

variable {ε ε' σ τ α β : Type}

namespace Outcome

/-- `Q` holds of a normal ending and `E` of a typed error. -/
def Respects (o : Outcome ε σ α) (Q : α → σ → Prop) (E : ε → σ → Prop) : Prop :=
  match o with
  | ok a s => Q a s
  | error e s => E e s
  | panic => True
  | diverge => True

theorem Respects.mono {o : Outcome ε σ α} {Q Q' : α → σ → Prop} {E E' : ε → σ → Prop}
    (h : o.Respects Q E) (hQ : ∀ a s, Q a s → Q' a s) (hE : ∀ e s, E e s → E' e s) :
    o.Respects Q' E' := by
  cases o with
  | ok a s => exact hQ a s h
  | error e s => exact hE e s h
  | panic => trivial
  | diverge => trivial

theorem respects_of_ok {o : Outcome ε σ α} {Q : α → σ → Prop} (h : ∀ a s, o = ok a s → Q a s) :
    o.Respects Q (fun _ _ => True) := by
  cases o with
  | ok a s => exact h a s rfl
  | error e s => trivial
  | panic => trivial
  | diverge => trivial

theorem Respects.bind {o : Outcome ε σ α} {f : α → Exec ε σ β} {Q : α → σ → Prop}
    {Q' : β → σ → Prop} {E : ε → σ → Prop} (h : o.Respects Q E)
    (hf : ∀ a s, Q a s → (f a s).Respects Q' E) : (o.bind f).Respects Q' E := by
  cases o with
  | ok a s => exact hf a s h
  | error e s => exact h
  | panic => trivial
  | diverge => trivial

theorem Satisfies.respects {o : Outcome ε σ α} {Q : α → σ → Prop} {E : ε → σ → Prop}
    (h : o.Satisfies Q E) : o.Respects Q E := by
  cases o with
  | ok a s => exact h
  | error e s => exact h
  | panic => trivial
  | diverge => trivial

/-- A run that is known to end. -/
theorem Respects.satisfies {o : Outcome ε σ α} {Q : α → σ → Prop} {E : ε → σ → Prop}
    (h : o.Respects Q E) (hends : o.Satisfies (fun _ _ => True) (fun _ _ => True)) : o.Satisfies Q E := by
  cases o with
  | ok a s => exact h
  | error e s => exact h
  | panic => exact hends
  | diverge => exact hends

end Outcome

namespace Exec

/-! ## Loops -/

theorem times_respects (inv : σ → Prop) {m : Exec ε σ α} {E : ε → σ → Prop}
    (step : ∀ s, inv s → (m s).Respects (fun _ s' => inv s') E) :
    ∀ (n : Nat) (s : σ), inv s → (times m n s).Respects (fun _ s' => inv s') E := by
  intro n
  induction n with
  | zero => intro s hs; exact hs
  | succ n ih =>
      intro s hs
      refine (step s hs).bind fun a s₁ hs₁ => ?_
      exact (ih s₁ hs₁).bind fun as s₂ hs₂ => hs₂

theorem iterate_respects (inv : σ → Prop) {body : β → Exec ε σ (β ⊕ α)} {E : ε → σ → Prop}
    (step : ∀ b s, inv s → (body b s).Respects (fun _ s' => inv s') E) :
    ∀ (fuel : Nat) (b : β) (s : σ), inv s → (iterate body fuel b s).Respects (fun _ s' => inv s') E := by
  intro fuel
  induction fuel with
  | zero => intro b s _; trivial
  | succ fuel ih =>
      intro b s hs
      refine (step b s hs).bind fun r s' hs' => ?_
      cases r with
      | inl b' => exact ih b' s' hs'
      | inr a => exact hs'

theorem loop_respects (inv : σ → Prop) (bound : σ → Nat) {body : β → Exec ε σ (β ⊕ α)}
    {E : ε → σ → Prop} (step : ∀ b s, inv s → (body b s).Respects (fun _ s' => inv s') E) (b : β) (s : σ)
    (hs : inv s) : (loop bound body b s).Respects (fun _ s' => inv s') E :=
  iterate_respects inv step (bound s + 1) b s hs

/-! ## Errors -/

/-- Every typed error of `m` is one that `E` allows. -/
def OnlyRaises (E : ε → Prop) (m : Exec ε σ α) : Prop :=
  ∀ s, (m s).Respects (fun _ _ => True) (fun e _ => E e)

variable {E : ε → Prop}

theorem onlyRaises_pure (a : α) : OnlyRaises E (pure a : Exec ε σ α) := fun _ => trivial

theorem onlyRaises_throw {e : ε} (h : E e) : OnlyRaises E (throw e : Exec ε σ α) := fun _ => h

theorem OnlyRaises.bind {m : Exec ε σ α} {f : α → Exec ε σ β} (hm : OnlyRaises E m)
    (hf : ∀ a, OnlyRaises E (f a)) : OnlyRaises E (m >>= f) := by
  intro s
  exact (hm s).bind fun a s' _ => hf a s'

theorem OnlyRaises.ite {c : Prop} [Decidable c] {m n : Exec ε σ α} (hm : OnlyRaises E m)
    (hn : OnlyRaises E n) : OnlyRaises E (if c then m else n) := by
  split
  · exact hm
  · exact hn

theorem OnlyRaises.times {m : Exec ε σ α} (hm : OnlyRaises E m) (n : Nat) : OnlyRaises E (times m n) := by
  intro s
  exact (times_respects (fun _ => True) (fun s _ => hm s) n s trivial)

theorem OnlyRaises.locally {m : Exec ε τ α} (hm : OnlyRaises E m) (t : τ) :
    OnlyRaises E (locally m t : Exec ε σ (α × τ)) := by
  intro s
  have hmt := hm t
  unfold Exec.locally
  cases h : m t with
  | ok a t' => trivial
  | error e t' => rw [h] at hmt; exact hmt
  | panic => trivial
  | diverge => trivial

theorem OnlyRaises.mapError {E' : ε' → Prop} {convert : ε → ε'} {m : Exec ε σ α} (hm : OnlyRaises E m)
    (hconvert : ∀ e, E e → E' (convert e)) : OnlyRaises E' (mapError convert m) := by
  intro s
  have hms := hm s
  unfold Exec.mapError
  cases h : m s with
  | ok a s' => trivial
  | error e s' => rw [h] at hms; exact hconvert e hms
  | panic => trivial
  | diverge => trivial

theorem OnlyRaises.not_error {m : Exec ε σ α} (hm : OnlyRaises E m) {s s' : σ} {e : ε} (he : ¬ E e) :
    m s ≠ .error e s' := by
  intro h
  have hms := hm s
  rw [h] at hms
  exact he hms

/-! The primitives fail in no typed way. -/

theorem onlyRaises_remaining : OnlyRaises E (remaining : Exec ε Bytes Nat) := fun _ => trivial

theorem onlyRaises_take (n : Nat) : OnlyRaises E (take n : Exec ε Bytes Bytes) := by
  intro src
  unfold take
  split
  · trivial
  · trivial

theorem onlyRaises_get [Word α] : OnlyRaises E (get : Exec ε Bytes α) :=
  (onlyRaises_take _).bind fun _ => onlyRaises_pure _

end Exec

end Wire
