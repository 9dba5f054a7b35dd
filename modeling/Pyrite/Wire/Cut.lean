import Pyrite.Wire.Partial

set_option autoImplicit false

/-! # Input that was cut short

A reader that is given a first part of its input should do what it does on the whole, or notice that
something is missing. `Outcome.Tracks` relates the two runs, `Exec.Follows` is the property of a reader,
and the rules below follow the ways in which readers are put together. The primitives do not have the
property: they panic where bytes are missing. What has it is a primitive behind its guard.

Seen from the other end, what such a reader refuses stays refused whatever follows (`Exec.Follows.decided`). -/

namespace Wire

variable {ε σ τ α β : Type}

/-- How a run on a part of the input tracks a successful run on the whole, `o'`: it ends with the same value
    and a part of what the other leaves, or with an error that is `short`. -/
def Outcome.Tracks (part : σ → σ → Prop) (short : ε → Prop) (o o' : Outcome ε σ α) : Prop :=
  ∀ a s', o' = .ok a s' → (∃ s, part s s' ∧ o = .ok a s) ∨ ∃ e s, short e ∧ o = .error e s

section Rules

variable {part : σ → σ → Prop} {short : ε → Prop}

theorem Outcome.tracks_ok {a : α} {s s' : σ} (h : part s s') :
    Tracks part short (ok a s : Outcome ε σ α) (ok a s') := by
  intro a' s'' heq
  obtain ⟨rfl, rfl⟩ := Outcome.ok.inj heq
  exact Or.inl ⟨s, h, rfl⟩

theorem Outcome.tracks_short {e : ε} (he : short e) (s : σ) (o' : Outcome ε σ α) :
    Tracks part short (error e s) o' :=
  fun _ _ _ => Or.inr ⟨e, s, he, rfl⟩

/-- Nothing is asked of a run that fails on the whole. -/
theorem Outcome.tracks_error (o : Outcome ε σ α) (e : ε) (s : σ) : Tracks part short o (error e s) := by
  intro a s' heq
  cases heq

/-- What the two runs do next is compared where both went on. -/
theorem Outcome.Tracks.bind {o o' : Outcome ε σ α} {f : α → Exec ε σ β} (h : o.Tracks part short o')
    (hf : ∀ a s s', o = .ok a s → o' = .ok a s' → part s s' → (f a s).Tracks part short (f a s')) :
    (o.bind f).Tracks part short (o'.bind f) := by
  cases o' with
  | error e s' => exact Outcome.tracks_error _ e s'
  | panic =>
      intro a s' heq
      cases heq
  | diverge =>
      intro a s' heq
      cases heq
  | ok a s' =>
      rcases h a s' rfl with ⟨s, hpart, rfl⟩ | ⟨e, s, he, rfl⟩
      · exact hf a s s' rfl rfl hpart
      · exact Outcome.tracks_short he s _

namespace Exec

/-- From every part of a state, `m` tracks what it does from the whole. -/
def Follows (part : σ → σ → Prop) (short : ε → Prop) (m : Exec ε σ α) : Prop :=
  ∀ s s', part s s' → (m s).Tracks part short (m s')

theorem follows_pure (a : α) : Follows part short (pure a : Exec ε σ α) :=
  fun _ _ hpart => Outcome.tracks_ok hpart

theorem follows_throw (e : ε) : Follows part short (throw e : Exec ε σ α) :=
  fun _ s' _ => Outcome.tracks_error _ e s'

theorem follows_of_stateless {m : Exec ε σ α} (hm : m.Stateless) : Follows part short m := by
  obtain ⟨r, rfl⟩ := hm
  cases r with
  | ok a => exact follows_pure a
  | error e => exact follows_throw e

theorem Follows.bind {m : Exec ε σ α} {f : α → Exec ε σ β} (hm : Follows part short m)
    (hf : ∀ a, Follows part short (f a)) : Follows part short (m >>= f) := by
  intro s s' hpart
  exact (hm s s' hpart).bind fun a s₁ s₁' _ _ hpart₁ => hf a s₁ s₁' hpart₁

theorem Follows.ite {c : Prop} [Decidable c] {m n : Exec ε σ α} (hm : Follows part short m)
    (hn : Follows part short n) : Follows part short (if c then m else n) := by
  split
  · exact hm
  · exact hn

theorem Follows.times {m : Exec ε σ α} (hm : Follows part short m) (n : Nat) :
    Follows part short (times m n) := by
  induction n with
  | zero => exact follows_pure []
  | succ n ih => exact hm.bind fun a => ih.bind fun as => follows_pure (a :: as)

theorem follows_iterate {body : β → Exec ε σ (β ⊕ α)} (hbody : ∀ b, Follows part short (body b))
    (fuel : Nat) (b : β) : Follows part short (iterate body fuel b) := by
  induction fuel generalizing b with
  | zero =>
      intro s s' _ a s'' heq
      cases heq
  | succ fuel ih =>
      refine (hbody b).bind fun r => ?_
      cases r with
      | inl b' => exact ih b'
      | inr a => exact follows_pure a

/-- The part may get by with fewer rounds than the whole: the measure says that they are enough. -/
theorem follows_loop {bound : σ → Nat} (hbound : ∀ s s', part s s' → bound s ≤ bound s')
    {body : β → Exec ε σ (β ⊕ α)} (hbody : ∀ b, Follows part short (body b))
    (hstep : ∀ b s b' s', body b s = .ok (.inl b') s' → bound s' < bound s) (b : β) :
    Follows part short (loop bound body b) := by
  intro s s' hpart
  have hle := hbound s s' hpart
  have hfuel : loop bound body b s = iterate body (bound s' + 1) b s :=
    iterate_fuel bound hstep _ _ b s (Nat.lt_succ_self _) (by omega)
  rw [hfuel]
  exact follows_iterate hbody _ b s s' hpart

/-- A reader on a component of the state. -/
theorem zoom_tracks {part' : τ → τ → Prop} {get : σ → τ} {set : τ → σ → σ} {m : Exec ε τ α} {s s' : σ}
    (hm : (m (get s)).Tracks part' short (m (get s'))) (hset : ∀ t t', part' t t' → part (set t s) (set t' s')) :
    (zoom get set m s).Tracks part short (zoom get set m s') := by
  intro a s'' heq
  unfold Exec.zoom at heq ⊢
  cases hwhole : m (get s') with
  | ok a' t' =>
      rw [hwhole] at heq
      obtain ⟨rfl, rfl⟩ := Outcome.ok.inj heq
      rcases hm a' t' hwhole with ⟨t, ht, hok⟩ | ⟨e, t, he, herror⟩
      · rw [hok]
        exact Or.inl ⟨_, hset t t' ht, rfl⟩
      · rw [herror]
        exact Or.inr ⟨e, _, he, rfl⟩
  | error e t' =>
      rw [hwhole] at heq
      cases heq
  | panic =>
      rw [hwhole] at heq
      cases heq
  | diverge =>
      rw [hwhole] at heq
      cases heq

end Exec

end Rules

/-! ## Bytes -/

/-- The bytes without the `more` behind them. -/
def Cut (more src whole : Bytes) : Prop := whole = src ++ more

section Bytes

variable {more : Bytes} {short : ε → Prop}

theorem Cut.length_le {src whole : Bytes} (h : Cut more src whole) : src.length ≤ whole.length := by
  rw [h, List.length_append]
  exact Nat.le_add_right _ _

namespace Exec

/-- Taking bytes that are there. -/
theorem take_tracks {n : Nat} {src whole : Bytes} (hcut : Cut more src whole) (hn : n ≤ src.length) :
    (take n src : Outcome ε Bytes Bytes).Tracks (Cut more) short (take n whole) := by
  have hn' : n ≤ whole.length := le_trans hn hcut.length_le
  rw [take, if_neg (Nat.not_lt.mpr hn), take, if_neg (Nat.not_lt.mpr hn')]
  rw [hcut, List.take_append_of_le_length hn, List.drop_append_of_le_length hn]
  exact Outcome.tracks_ok rfl

theorem get_tracks [Word α] {src whole : Bytes} (hcut : Cut more src whole) (hn : Word.size α ≤ src.length) :
    (get src : Outcome ε Bytes α).Tracks (Cut more) short (get whole) :=
  (take_tracks hcut hn).bind fun _ _ _ _ _ hcut' => Outcome.tracks_ok hcut'

/-- What stands behind a check of the bytes that remain. -/
theorem follows_guarded {n : Nat} {e : Nat → ε} (he : ∀ remaining, short (e remaining)) {m : Exec ε Bytes α}
    (hm : ∀ src whole, Cut more src whole → n ≤ src.length → (m src).Tracks (Cut more) short (m whole)) :
    Follows (Cut more) short (do
      let remaining ← remaining
      if remaining < n then throw (e remaining) else m) := by
  intro src whole hcut
  simp only [bind_apply, remaining_apply, Outcome.bind_ok, ite_apply, throw_apply]
  by_cases hn : src.length < n
  · rw [if_pos hn]
    exact Outcome.tracks_short (he _) _ _
  · have hle := hcut.length_le
    rw [if_neg hn, if_neg (by omega)]
    exact hm src whole hcut (Nat.not_lt.mp hn)

/-- A run of words that are there. -/
theorem times_get_tracks [Word α] (n : Nat) {src whole : Bytes} (hcut : Cut more src whole)
    (hn : n * Word.size α ≤ src.length) :
    (times (get : Exec ε Bytes α) n src).Tracks (Cut more) short (times get n whole) := by
  induction n generalizing src whole with
  | zero => exact Outcome.tracks_ok hcut
  | succ n ih =>
      rw [Nat.succ_mul] at hn
      have hfirst : Word.size α ≤ src.length := le_trans (Nat.le_add_left _ _) hn
      refine (get_tracks hcut hfirst).bind fun a src₁ whole₁ hget _ hcut₁ => ?_
      have hspec := get_spec (α := α) (E := fun _ _ => True) hfirst (ε := ε)
      have hsrc := congrArg List.length (hspec.of_ok hget)
      rw [List.length_append, length_wordBytes] at hsrc
      refine (ih hcut₁ (by omega)).bind fun as src₂ whole₂ _ _ hcut₂ => ?_
      exact Outcome.tracks_ok hcut₂

/-- What a reader says of `src` stands whatever `more` there is behind it: the value it returned, or that it
    returns none, unless it has said that the input is too short. -/
def Decided (m : Exec ε Bytes α) (short : ε → Prop) (src more : Bytes) : Prop :=
  (m src).Satisfies (fun a rest => m (src ++ more) = .ok a (rest ++ more))
    (fun e _ => short e ∨ ∀ a rest, m (src ++ more) ≠ .ok a rest)

/-- A reader that follows is decided about what it refuses, and needs to be so about what it returns. -/
theorem Follows.decided {m : Exec ε Bytes α} (hm : Follows (Cut more) short m) {src : Bytes}
    {Q : α → Bytes → Prop} (hspec : (m src).Satisfies Q fun _ _ => True)
    (hok : ∀ a rest, Q a rest → m (src ++ more) = .ok a (rest ++ more)) : Decided m short src more := by
  unfold Decided
  cases hpart : m src with
  | ok a rest =>
      rw [hpart] at hspec
      exact hok a rest hspec
  | error e left =>
      by_cases he : short e
      · exact Or.inl he
      refine Or.inr fun a rest hwhole => ?_
      rcases hm src (src ++ more) rfl a rest hwhole with ⟨rest', -, hok⟩ | ⟨e', left', he', herror⟩
      · rw [hpart] at hok
        cases hok
      · rw [hpart] at herror
        obtain ⟨rfl, -⟩ := Outcome.error.inj herror
        exact he he'
  | panic =>
      rw [hpart] at hspec
      exact hspec
  | diverge =>
      rw [hpart] at hspec
      exact hspec

end Exec

end Bytes

end Wire
