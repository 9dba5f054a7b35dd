import Mathlib.Algebra.Ring.Nat
import Mathlib.Data.List.Induction

set_option autoImplicit false

/-! # Machines that take events

A machine is a step function that may refuse an event. `runEvents` takes a list of events in turn, and
`runEvents_induction` is the rule for invariants: what holds at the start and is kept by every step, holds
after every run. `runEvents_length_le` bounds the length of a run by a rank. The last part counts the members
of a list that a step replaces or removes. -/

namespace Wire

variable {σ ε α : Type}

/-- Take the events in turn. `none` if one of them is refused. -/
def runEvents (step : σ → ε → Option σ) (s : σ) (events : List ε) : Option σ := events.foldlM step s

theorem runEvents_concat (step : σ → ε → Option σ) (s : σ) (events : List ε) (e : ε) :
    runEvents step s (events ++ [e]) = (runEvents step s events).bind fun s' => step s' e := by
  simp [runEvents]

/-- Induction over runs, with what has happened so far. -/
theorem runEvents_induction {step : σ → ε → Option σ} {s₀ : σ} {P : List ε → σ → Prop} (hstart : P [] s₀)
    (hstep : ∀ events s e s', P events s → step s e = some s' → P (events ++ [e]) s') {events : List ε} {s : σ}
    (h : runEvents step s₀ events = some s) : P events s := by
  induction events using List.reverseRecOn generalizing s with
  | nil =>
      obtain rfl := Option.some.inj h
      exact hstart
  | append_singleton events e ih =>
      rw [runEvents_concat] at h
      obtain ⟨s', hbefore, hlast⟩ := Option.bind_eq_some_iff.mp h
      exact hstep events s' e s (ih hbefore) hlast

theorem runEvents_append (step : σ → ε → Option σ) (s : σ) (first second : List ε) :
    runEvents step s (first ++ second) = (runEvents step s first).bind fun s' => runEvents step s' second := by
  simp [runEvents]

/-- Runs that follow each other. -/
theorem runEvents_trans {step : σ → ε → Option σ} {s₀ s₁ s₂ : σ} {first second : List ε}
    (h₁ : runEvents step s₀ first = some s₁) (h₂ : runEvents step s₁ second = some s₂) :
    runEvents step s₀ (first ++ second) = some s₂ := by
  rw [runEvents_append, h₁]
  exact h₂

theorem runEvents_singleton (step : σ → ε → Option σ) (s : σ) (e : ε) : runEvents step s [e] = step s e := by
  simp [runEvents]

/-- One more step. -/
theorem runEvents_snoc {step : σ → ε → Option σ} {s₀ s₁ s₂ : σ} {events : List ε} {e : ε}
    (h₁ : runEvents step s₀ events = some s₁) (h₂ : step s₁ e = some s₂) :
    runEvents step s₀ (events ++ [e]) = some s₂ :=
  runEvents_trans h₁ ((runEvents_singleton step s₁ e).trans h₂)

/-- A machine whose every step lowers a rank, from where the invariant `P` holds on, takes no more steps than
    the rank it has. -/
theorem runEvents_length_le {step : σ → ε → Option σ} {P : σ → Prop} (rank : σ → Nat)
    (hlowers : ∀ s e s', P s → step s e = some s' → P s' ∧ rank s' < rank s) {s₀ s : σ} (h₀ : P s₀)
    {events : List ε} (h : runEvents step s₀ events = some s) : P s ∧ events.length + rank s ≤ rank s₀ := by
  refine runEvents_induction (P := fun events s => P s ∧ events.length + rank s ≤ rank s₀) ?_ ?_ h
  · exact ⟨h₀, by simp⟩
  · intro events s e s' ⟨hs, hlength⟩ hstep
    obtain ⟨hs', hlt⟩ := hlowers s e s' hs hstep
    refine ⟨hs', ?_⟩
    rw [List.length_append, List.length_singleton]
    omega

/-! ## Counting -/

/-- A list around its member at `i`. -/
theorem split_at {xs : List α} {i : Nat} {x : α} (h : xs[i]? = some x) :
    xs = xs.take i ++ x :: xs.drop (i + 1) := by
  obtain ⟨hlt, rfl⟩ := List.getElem?_eq_some_iff.mp h
  rw [← List.drop_eq_getElem_cons hlt, List.take_append_drop]

/-- The count after the member at `i` is replaced. -/
theorem countP_set_add {xs : List α} {i : Nat} {x : α} (h : xs[i]? = some x) (p : α → Bool) (y : α) :
    (xs.set i y).countP p + (if p x then 1 else 0) = xs.countP p + (if p y then 1 else 0) := by
  obtain ⟨hlt, -⟩ := List.getElem?_eq_some_iff.mp h
  rw [List.set_eq_take_append_cons_drop, if_pos hlt]
  conv_rhs => rw [split_at h]
  simp only [List.countP_append, List.countP_cons]
  omega

/-- The count after the member at `i` is removed. -/
theorem countP_eraseIdx_add {xs : List α} {i : Nat} {x : α} (h : xs[i]? = some x) (p : α → Bool) :
    (xs.eraseIdx i).countP p + (if p x then 1 else 0) = xs.countP p := by
  rw [List.eraseIdx_eq_take_drop_succ]
  conv_rhs => rw [split_at h]
  simp only [List.countP_append, List.countP_cons]
  omega

theorem length_eraseIdx_add {xs : List α} {i : Nat} {x : α} (h : xs[i]? = some x) :
    (xs.eraseIdx i).length + 1 = xs.length := by
  obtain ⟨hlt, -⟩ := List.getElem?_eq_some_iff.mp h
  rw [List.length_eraseIdx_of_lt hlt]
  omega

/-- The sum after the member at `i` is replaced. -/
theorem sum_map_set_add {xs : List α} {i : Nat} {x : α} (h : xs[i]? = some x) (f : α → Nat) (y : α) :
    ((xs.set i y).map f).sum + f x = (xs.map f).sum + f y := by
  obtain ⟨hlt, -⟩ := List.getElem?_eq_some_iff.mp h
  rw [List.set_eq_take_append_cons_drop, if_pos hlt]
  conv_rhs => rw [split_at h]
  simp only [List.map_append, List.map_cons, List.sum_append, List.sum_cons]
  omega

/-- The sum after the member at `i` is removed. -/
theorem sum_map_eraseIdx_add {xs : List α} {i : Nat} {x : α} (h : xs[i]? = some x) (f : α → Nat) :
    ((xs.eraseIdx i).map f).sum + f x = (xs.map f).sum := by
  rw [List.eraseIdx_eq_take_drop_succ]
  conv_rhs => rw [split_at h]
  simp only [List.map_append, List.map_cons, List.sum_append, List.sum_cons]
  omega

/-- Counting by place. -/
theorem countP_eq_length_filter_range (xs : List α) (p : α → Bool) :
    xs.countP p = ((List.range xs.length).filter fun i => xs[i]?.any p).length := by
  induction xs using List.reverseRecOn with
  | nil => rfl
  | append_singleton xs x ih =>
      have hbefore : (List.range xs.length).filter (fun i => (xs ++ [x])[i]?.any p)
          = (List.range xs.length).filter fun i => xs[i]?.any p := by
        refine List.filter_congr fun i hi => ?_
        rw [List.getElem?_append_left (List.mem_range.mp hi)]
      rw [List.countP_append, ih, List.length_append, List.length_singleton, List.range_succ, List.filter_append,
        List.length_append, hbefore]
      rcases Bool.eq_false_or_eq_true (p x) with htrue | hfalse
      · simp [htrue]
      · simp [hfalse]

/-- A sum in which only the counted members are not zero. -/
theorem sum_map_le_countP_mul {xs : List α} {f : α → Nat} {p : α → Bool} {k : Nat}
    (h : ∀ x ∈ xs, f x ≤ k ∧ (p x = false → f x = 0)) : (xs.map f).sum ≤ xs.countP p * k := by
  induction xs with
  | nil => simp
  | cons x xs ih =>
      have htail := ih fun y hy => h y (List.mem_cons_of_mem x hy)
      obtain ⟨hle, hzero⟩ := h x List.mem_cons_self
      rw [List.map_cons, List.sum_cons, List.countP_cons, Nat.add_mul]
      rcases Bool.eq_false_or_eq_true (p x) with htrue | hfalse
      · rw [if_pos htrue]
        omega
      · rw [hzero hfalse]
        omega

end Wire
