import Mathlib.Data.List.Infix

set_option autoImplicit false

/-! # Codes that delimit themselves

A code is a relation between values and the words they are written as. It delimits a value if the end of
the value's words can be told from what they begin with: whatever follows, no other value is written there,
and what follows is the same. `Wire.Delimits` is about one value, so that it can be proved by induction over
values; the rules are for one code after another, for a given number of words of a code, and for words up
to an end marker. -/

namespace Wire

variable {α β γ : Type}

/-- What `a` is written as is told apart from everything that is written differently. -/
def Delimits (R : α → List β → Prop) (a : α) : Prop :=
  ∀ ⦃b : α⦄ ⦃p q r r' : List β⦄, R a p → R b q → p ++ r = q ++ r' → b = a ∧ r = r'

theorem delimits_congr {R S : α → List β → Prop} {a : α} (h : ∀ b p, R b p ↔ S b p) :
    Delimits R a ↔ Delimits S a := by
  have heq : R = S := by
    ext b p
    exact h b p
  rw [heq]

/-- Words of one length, each of one value. -/
theorem delimits_of_length {R : α → List β → Prop} {n : Nat} (hlength : ∀ a p, R a p → p.length = n)
    (hinjective : ∀ a b p, R a p → R b p → b = a) (a : α) : Delimits R a := by
  intro b p q r r' hp hq heq
  obtain ⟨rfl, rfl⟩ := List.append_inj heq ((hlength a p hp).trans (hlength b q hq).symm)
  exact ⟨hinjective a b p hp hq, rfl⟩

/-- One code after another, which may depend on what was written first. -/
theorem Delimits.seq {R : α → List β → Prop} {S : α → γ → List β → Prop} {a : α} {c : γ} (hfirst : Delimits R a)
    (hsecond : Delimits (S a) c) :
    Delimits (fun (x : α × γ) w => ∃ p q, R x.1 p ∧ S x.1 x.2 q ∧ w = p ++ q) (a, c) := by
  rintro ⟨b, d⟩ _ _ r r' ⟨p₁, p₂, hp₁, hp₂, rfl⟩ ⟨q₁, q₂, hq₁, hq₂, rfl⟩ heq
  rw [List.append_assoc, List.append_assoc] at heq
  obtain ⟨rfl, heq⟩ := hfirst hp₁ hq₁ heq
  obtain ⟨rfl, heq⟩ := hsecond hp₂ hq₂ heq
  exact ⟨rfl, heq⟩

/-- A value that is written as one that is delimited, under a view of the values. -/
theorem Delimits.comap {R : γ → List β → Prop} (view : α → γ) {a : α} (h : Delimits R (view a))
    (hview : ∀ b, view b = view a → b = a) : Delimits (fun x w => R (view x) w) a := by
  intro b p q r r' hp hq heq
  obtain ⟨hsame, hrest⟩ := h hp hq heq
  exact ⟨hview b hsame, hrest⟩

/-! ## Lists -/

/-- Each member, one after the other. -/
inductive Each (R : α → List β → Prop) : List α → List β → Prop where
  | nil : Each R [] []
  | cons {a : α} {as : List α} {p q : List β} (hhead : R a p) (htail : Each R as q) : Each R (a :: as) (p ++ q)

@[simp] theorem each_nil {R : α → List β → Prop} {w : List β} : Each R [] w ↔ w = [] := by
  constructor
  · intro h
    cases h
    rfl
  · rintro rfl
    exact .nil

theorem each_cons {R : α → List β → Prop} {a : α} {as : List α} {w : List β} :
    Each R (a :: as) w ↔ ∃ p q, R a p ∧ Each R as q ∧ w = p ++ q := by
  constructor
  · intro h
    cases h with
    | cons hhead htail => exact ⟨_, _, hhead, htail, rfl⟩
  · rintro ⟨p, q, hhead, htail, rfl⟩
    exact .cons hhead htail

/-- Members that are each written in one way. -/
theorem each_eq_flatMap {f : α → List β} {as : List α} {w : List β} :
    Each (fun a p => p = f a) as w ↔ w = as.flatMap f := by
  induction as generalizing w with
  | nil => simp
  | cons a as ih => simp [each_cons, ih]

/-- A list whose length is known. -/
theorem delimits_each {R : α → List β → Prop} {xs : List α} (h : ∀ x ∈ xs, Delimits R x) :
    Delimits (fun ys w => ys.length = xs.length ∧ Each R ys w) xs := by
  rintro ys p q r r' ⟨-, hp⟩ ⟨hlength, hq⟩ heq
  induction xs generalizing ys p q with
  | nil =>
      obtain rfl := List.length_eq_zero_iff.mp hlength
      rw [each_nil.mp hp, each_nil.mp hq] at heq
      exact ⟨rfl, heq⟩
  | cons x xs ih =>
      obtain ⟨y, ys, rfl⟩ := List.exists_cons_of_length_eq_add_one hlength
      obtain ⟨p₁, p₂, hx, hxs, rfl⟩ := each_cons.mp hp
      obtain ⟨q₁, q₂, hy, hys, rfl⟩ := each_cons.mp hq
      rw [List.append_assoc, List.append_assoc] at heq
      obtain ⟨rfl, heq⟩ := h x List.mem_cons_self hx hy heq
      obtain ⟨rfl, heq⟩ := ih (fun x' hmem => h x' (List.mem_cons_of_mem y hmem)) hxs (Nat.succ.inj hlength) hys
        heq
      exact ⟨rfl, heq⟩

/-- A list that ends at a mark with which no member begins. -/
theorem delimits_until {R : α → List β → Prop} {mark : β} (hmark : ∀ x w, R x w → ∃ b w', w = b :: w' ∧ b ≠ mark)
    (xs : List α) (h : ∀ x ∈ xs, Delimits R x) :
    Delimits (fun ys w => ∃ p, Each R ys p ∧ w = p ++ [mark]) xs := by
  rintro ys _ _ r r' ⟨p, hp, rfl⟩ ⟨q, hq, rfl⟩ heq
  simp only [List.append_assoc, List.singleton_append] at heq
  induction xs generalizing ys p q with
  | nil =>
      obtain rfl := each_nil.mp hp
      cases ys with
      | nil =>
          obtain rfl := each_nil.mp hq
          exact ⟨rfl, (List.cons.inj heq).2⟩
      | cons y ys =>
          obtain ⟨q₁, q₂, hy, -, rfl⟩ := each_cons.mp hq
          obtain ⟨b, w', rfl, hne⟩ := hmark y q₁ hy
          exact absurd (List.cons.inj heq).1.symm hne
  | cons x xs ih =>
      obtain ⟨p₁, p₂, hx, hxs, rfl⟩ := each_cons.mp hp
      cases ys with
      | nil =>
          obtain rfl := each_nil.mp hq
          obtain ⟨b, w', rfl, hne⟩ := hmark x p₁ hx
          exact absurd (List.cons.inj heq).1 hne
      | cons y ys =>
          obtain ⟨q₁, q₂, hy, hys, rfl⟩ := each_cons.mp hq
          rw [List.append_assoc, List.append_assoc] at heq
          obtain ⟨rfl, heq⟩ := h x List.mem_cons_self hx hy heq
          obtain ⟨rfl, heq⟩ := ih (fun x' hmem => h x' (List.mem_cons_of_mem y hmem)) p₂ hxs q₂ hys heq
          exact ⟨rfl, heq⟩

end Wire
