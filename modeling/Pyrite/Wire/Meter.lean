import Pyrite.Wire.Partial

set_option autoImplicit false

/-! # Measuring recursion

How deep a recursive program recurses, and how often it is entered, cannot be seen from its outcome. A
metered copy of the program carries a `Meter` beside its state and marks each activation of interest with
`activation`. That the copy is the program is a theorem about it, `Exec.Erases`, and its rules follow the
ways in which programs are put together; what the meter says then holds of the program. -/

namespace Wire

variable {ε ε' σ τ γ α β : Type}

/-- The outcome without what was carried beside the state. -/
def Outcome.forget : Outcome ε (σ × γ) α → Outcome ε σ α
  | ok a s => ok a s.1
  | error e s => error e s.1
  | panic => panic
  | diverge => diverge

theorem Outcome.ends_of_forget {o : Outcome ε (σ × γ) α} {o' : Outcome ε σ α} {Q : α → σ → Prop}
    {E : ε → σ → Prop} (h : o'.Satisfies Q E) (hforget : o.forget = o') :
    o.Satisfies (fun _ _ => True) (fun _ _ => True) := by
  subst hforget
  cases o with
  | ok a s => trivial
  | error e s => trivial
  | panic => exact h
  | diverge => exact h

namespace Exec

/-- Run `m` beside something that it does not touch. -/
def beside (m : Exec ε σ α) : Exec ε (σ × γ) α := zoom Prod.fst (fun s p => (s, p.2)) m

/-! ## Erasure -/

/-- Without what it carries along, `m'` is `m`. -/
def Erases (m' : Exec ε (σ × γ) α) (m : Exec ε σ α) : Prop := ∀ s g, (m' (s, g)).forget = m s

theorem erases_pure (a : α) : Erases (pure a : Exec ε (σ × γ) α) (pure a) := fun _ _ => rfl

theorem erases_throw (e : ε) : Erases (throw e : Exec ε (σ × γ) α) (throw e) := fun _ _ => rfl

theorem erases_beside (m : Exec ε σ α) : Erases (beside m : Exec ε (σ × γ) α) m := by
  intro s g
  simp only [beside, zoom]
  cases m s <;> rfl

theorem Erases.bind {m' : Exec ε (σ × γ) α} {m : Exec ε σ α} {f' : α → Exec ε (σ × γ) β}
    {f : α → Exec ε σ β} (hm : Erases m' m) (hf : ∀ a, Erases (f' a) (f a)) :
    Erases (m' >>= f') (m >>= f) := by
  intro s g
  rw [bind_apply, bind_apply, ← hm s g]
  cases m' (s, g) with
  | ok a p => exact hf a p.1 p.2
  | error e p => rfl
  | panic => rfl
  | diverge => rfl

theorem Erases.ite {c : Prop} [Decidable c] {m' n' : Exec ε (σ × γ) α} {m n : Exec ε σ α}
    (hm : Erases m' m) (hn : Erases n' n) : Erases (if c then m' else n') (if c then m else n) := by
  split
  · exact hm
  · exact hn

theorem Erases.mapError {m' : Exec ε (σ × γ) α} {m : Exec ε σ α} (hm : Erases m' m) (convert : ε → ε') :
    Erases (mapError convert m') (mapError convert m) := by
  intro s g
  rw [Exec.mapError, Exec.mapError, ← hm s g]
  cases m' (s, g) <;> rfl

/-- Run `m` on a state of its own, and add a note of how that state ended to a log. -/
def logged (note : τ → γ) (m : Exec ε τ α) (t : τ) : Exec ε (σ × List γ) (α × τ) := fun p =>
  match m t with
  | .ok a t' => .ok (a, t') (p.1, p.2 ++ [note t'])
  | .error e t' => .error e (p.1, p.2 ++ [note t'])
  | .panic => .panic
  | .diverge => .diverge

theorem erases_logged (note : τ → γ) (m : Exec ε τ α) (t : τ) :
    Erases (logged note m t : Exec ε (σ × List γ) (α × τ)) (locally m t) := by
  intro s log
  rw [logged, locally]
  cases m t <;> rfl

theorem logged_spec {note : τ → γ} {m : Exec ε τ α} {t : τ} {p : σ × List γ} {Q : α → τ → Prop}
    {Q' : α × τ → σ × List γ → Prop} {E : ε → τ → Prop} {E' : ε → σ × List γ → Prop}
    (h : (m t).Satisfies Q E) (hQ : ∀ a t', Q a t' → Q' (a, t') (p.1, p.2 ++ [note t']))
    (hE : ∀ e t', E e t' → E' e (p.1, p.2 ++ [note t'])) : (logged note m t p).Satisfies Q' E' := by
  unfold logged
  cases hm : m t with
  | ok a t' => rw [hm] at h; exact hQ a t' h
  | error e t' => rw [hm] at h; exact hE e t' h
  | panic => rw [hm] at h; exact h
  | diverge => rw [hm] at h; exact h

theorem Erases.times {m' : Exec ε (σ × γ) α} {m : Exec ε σ α} (hm : Erases m' m) (n : Nat) :
    Erases (times m' n) (times m n) := by
  induction n with
  | zero => exact erases_pure []
  | succ n ih => exact hm.bind fun a => ih.bind fun as => erases_pure (a :: as)

theorem erases_iterate {body' : β → Exec ε (σ × γ) (β ⊕ α)} {body : β → Exec ε σ (β ⊕ α)}
    (hbody : ∀ b, Erases (body' b) (body b)) (fuel : Nat) (b : β) :
    Erases (iterate body' fuel b) (iterate body fuel b) := by
  induction fuel generalizing b with
  | zero => exact fun _ _ => rfl
  | succ fuel ih =>
      refine (hbody b).bind fun r => ?_
      cases r with
      | inl b' => exact ih b'
      | inr a => exact erases_pure a

theorem erases_loop {body' : β → Exec ε (σ × γ) (β ⊕ α)} {body : β → Exec ε σ (β ⊕ α)}
    (hbody : ∀ b, Erases (body' b) (body b)) (bound : σ → Nat) (b : β) :
    Erases (loop (fun p => bound p.1) body' b) (loop bound body b) :=
  fun s g => erases_iterate hbody (bound s + 1) b s g

end Exec

/-! ## Meters -/

/-- What is measured of a recursion. -/
structure Meter where
  /-- The counted activations so far. -/
  entered : Nat
  /-- The greatest depth argument so far. -/
  deepest : Nat
  /-- The activations that are open. -/
  active : Nat
  /-- The most that were open at once. -/
  peak : Nat
  deriving DecidableEq, Repr

namespace Meter

def start : Meter := ⟨0, 0, 0, 0⟩

def enter (g : Meter) (counted : Bool) (depth : Nat) : Meter where
  entered := g.entered + counted.toNat
  deepest := max g.deepest depth
  active := g.active + 1
  peak := max g.peak (g.active + 1)

def leave (g : Meter) : Meter := { g with active := g.active - 1 }

/-- Neither a depth argument nor the nesting has exceeded its limit. -/
structure Within (g : Meter) (depth nesting : Nat) : Prop where
  deepest : g.deepest ≤ depth
  peak : g.peak ≤ nesting

theorem Within.enter {g : Meter} {depth nesting : Nat} (h : g.Within depth nesting) (counted : Bool) {d : Nat}
    (hdepth : d ≤ depth) (hnesting : g.active + 1 ≤ nesting) : (g.enter counted d).Within depth nesting :=
  ⟨max_le h.deepest hdepth, max_le h.peak hnesting⟩

theorem Within.leave {g : Meter} {depth nesting : Nat} (h : g.Within depth nesting) :
    g.leave.Within depth nesting :=
  ⟨h.deepest, h.peak⟩

end Meter

namespace Exec

/-- One activation of a function with the body `m`, from its call to its return, with a value or an error. -/
def activation (counted : Bool) (depth : Nat) (m : Exec ε (σ × Meter) α) : Exec ε (σ × Meter) α := fun p =>
  match m (p.1, p.2.enter counted depth) with
  | .ok a p' => .ok a (p'.1, p'.2.leave)
  | .error e p' => .error e (p'.1, p'.2.leave)
  | .panic => .panic
  | .diverge => .diverge

theorem Erases.activation {m' : Exec ε (σ × Meter) α} {m : Exec ε σ α} (h : Erases m' m) (counted : Bool)
    (depth : Nat) : Erases (activation counted depth m') m := by
  intro s g
  rw [← h s (g.enter counted depth)]
  unfold Exec.activation
  cases m' (s, g.enter counted depth) <;> rfl

theorem activation_respects {counted : Bool} {depth : Nat} {m : Exec ε (σ × Meter) α} {s : σ} {g : Meter}
    {Q : α → σ × Meter → Prop} {E : ε → σ × Meter → Prop}
    (h : (m (s, g.enter counted depth)).Respects (fun a p => Q a (p.1, p.2.leave))
      (fun e p => E e (p.1, p.2.leave))) :
    (activation counted depth m (s, g)).Respects Q E := by
  unfold activation
  cases hm : m (s, g.enter counted depth) with
  | ok a p => rw [hm] at h; exact h
  | error e p => rw [hm] at h; exact h
  | panic => trivial
  | diverge => trivial

/-- What runs beside something does not touch it. -/
theorem beside_same (m : Exec ε σ α) (p : σ × γ) :
    (beside m p).Respects (fun _ p' => p'.2 = p.2) (fun _ p' => p'.2 = p.2) := by
  simp only [beside, zoom]
  cases m p.1 with
  | ok a s => rfl
  | error e s => rfl
  | panic => trivial
  | diverge => trivial

/-- A computation beside the meter. -/
theorem beside_respects {m : Exec ε σ α} {s : σ} {g : γ} {Q : α → σ × γ → Prop} {E : ε → σ × γ → Prop}
    (h : (m s).Respects (fun a s' => Q a (s', g)) (fun e s' => E e (s', g))) :
    (beside m (s, g)).Respects Q E := by
  simp only [beside, zoom]
  cases hm : m s with
  | ok a s' => rw [hm] at h; exact h
  | error e s' => rw [hm] at h; exact h
  | panic => trivial
  | diverge => trivial

end Exec

/-! ## Writers -/

/-- A writer as a computation on the bytes it appends to. -/
def Put.toExec (x : Put ε α) : Exec ε Bytes α := fun dst =>
  match x.result with
  | .ok a => .ok a (dst ++ x.bytes)
  | .error e => .error e (dst ++ x.bytes)

theorem Put.toExec_pure (a : α) : (pure a : Put ε α).toExec = pure a := by
  funext dst
  show Outcome.ok a (dst ++ []) = .ok a dst
  rw [List.append_nil]

theorem Put.toExec_throw (e : ε) : (Put.throw e : Put ε α).toExec = Exec.throw e := by
  funext dst
  show Outcome.error e (dst ++ []) = .error e dst
  rw [List.append_nil]

theorem Put.toExec_bind (x : Put ε α) (f : α → Put ε β) :
    (x >>= f).toExec = x.toExec >>= fun a => (f a).toExec := by
  funext dst
  obtain ⟨bytes, result⟩ := x
  cases result with
  | ok a =>
      show (match (f a).result with
        | .ok b => Outcome.ok b (dst ++ (bytes ++ (f a).bytes))
        | .error e => .error e (dst ++ (bytes ++ (f a).bytes))) = (f a).toExec (dst ++ bytes)
      rw [← List.append_assoc]
      rfl
  | error e => rfl

theorem Put.toExec_ends (x : Put ε α) (dst : Bytes) :
    (x.toExec dst).Satisfies (fun _ _ => True) (fun _ _ => True) := by
  unfold Put.toExec
  cases x.result <;> trivial

end Wire
