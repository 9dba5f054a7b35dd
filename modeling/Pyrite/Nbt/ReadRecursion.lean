import Pyrite.Nbt.Canonical
import Pyrite.Wire.Meter

set_option autoImplicit false

/-! # How far the readers recurse

Each of the two readers guards its depth argument, against the calls that the other does not see. Metered
copies of them, equal to them but for the meter, show what the two guards give together: no activation
gets a depth argument above `MAX_DEPTH + 1`, no more than `2 * MAX_DEPTH + 1` activations are ever nested,
and no more payloads are entered than the node budget allows, and one more to find it exhausted. The
invariant ties the activations that are open to the depth argument: a compound body adds one where the
depth was raised, and a payload one more. -/

namespace Pyrite.Nbt

open Wire

/-! ## The metered readers -/

/-- `readEntry` -/
def meteredEntry (readValue : TagId → Exec NbtError (ReadState × Meter) NbtTag) (compound : NbtCompound) :
    Exec NbtError (ReadState × Meter) (NbtCompound ⊕ NbtCompound) := do
  let id ← Exec.beside (onSrc readTagId)
  if id = .endTag then do
    Exec.beside (rejectDuplicateKeys compound)
    pure (.inr compound)
  else do
    let name ← Exec.beside (onSrc readNbtString)
    let value ← readValue id
    pure (.inl (compound.push name value))

mutual

/-- `readCompoundBody` -/
def meteredCompoundBody (t : Target) (depth : Nat) : Exec NbtError (ReadState × Meter) NbtCompound :=
  Exec.activation false depth
    (if depth > maxDepth then Exec.throw (.depthExceeded maxDepth)
    else
      Exec.loop (fun p => p.1.src.length) (meteredEntry fun id => meteredPayload t id depth) NbtCompound.new)
termination_by (maxDepth + 1 - depth, 1)

/-- `readPayload` -/
def meteredPayload (t : Target) (id : TagId) (depth : Nat) : Exec NbtError (ReadState × Meter) NbtTag :=
  Exec.activation true depth
    (if depth > maxDepth then Exec.throw (.depthExceeded maxDepth)
    else do
      Exec.beside (countNode t)
      match id with
      | .endTag => Exec.throw (.invalidListElementType .endTag)
      | .byte => Exec.beside (onSrc (fixed 1 NbtTag.byte))
      | .short => Exec.beside (onSrc (fixed 2 NbtTag.short))
      | .int => Exec.beside (onSrc (fixed 4 NbtTag.int))
      | .long => Exec.beside (onSrc (fixed 8 NbtTag.long))
      | .float => Exec.beside (onSrc (fixed 4 NbtTag.float))
      | .double => Exec.beside (onSrc (fixed 8 NbtTag.double))
      | .byteArray => do
        let len ← Exec.beside (onSrc (readLength t 1))
        let value ← Exec.beside (onSrc (Exec.take len))
        pure (.byteArray value)
      | .string => do
        let value ← Exec.beside (onSrc readNbtString)
        pure (.string value)
      | .list => do
        let elementType ← Exec.beside (onSrc readTagId)
        let len ← Exec.beside (onSrc (readLength t (minElementSize elementType)))
        if elementType = .endTag ∧ len ≠ 0 then Exec.throw (.invalidListElementType .endTag)
        else do
          let items ← Exec.times (do
            let _ ← Exec.beside (Exec.usize t (depth + 1))
            meteredPayload t elementType (depth + 1)) len
          pure (.list (NbtList.fromParts elementType items))
      | .compound => do
        let _ ← Exec.beside (Exec.usize t (depth + 1))
        let compound ← meteredCompoundBody t (depth + 1)
        pure (.compound compound)
      | .intArray => do
        let len ← Exec.beside (onSrc (readLength t 4))
        let values ← Exec.beside (onSrc (Exec.times (Exec.get : Exec NbtError Bytes Int32) len))
        pure (.intArray values)
      | .longArray => do
        let len ← Exec.beside (onSrc (readLength t 8))
        let values ← Exec.beside (onSrc (Exec.times (Exec.get : Exec NbtError Bytes Int64) len))
        pure (.longArray values))
termination_by (maxDepth + 1 - depth, 0)

end

/-- `readRootBody` -/
def meteredRootBody (t : Target) : Exec NbtError (Bytes × Meter) NbtCompound := fun p =>
  match meteredCompoundBody t 1 (⟨p.1, 0⟩, p.2) with
  | .ok compound p' => .ok compound (p'.1.src, p'.2)
  | .error e p' => .error e (p'.1.src, p'.2)
  | .panic => .panic
  | .diverge => .diverge

/-- `readNetworkRoot` -/
def meteredNetworkRoot (t : Target) : Exec NbtError (Bytes × Meter) NbtCompound := do
  let id ← Exec.beside readTagId
  if id ≠ .compound then Exec.throw (.rootNotCompound id)
  else meteredRootBody t

/-- `readNamedRoot` -/
def meteredNamedRoot (t : Target) : Exec NbtError (Bytes × Meter) (String × NbtCompound) := do
  let id ← Exec.beside readTagId
  if id ≠ .compound then Exec.throw (.rootNotCompound id)
  else do
    let name ← Exec.beside readNbtString
    let compound ← meteredRootBody t
    pure (name, compound)

/-- `readOptionalNetworkRoot` -/
def meteredOptionalNetworkRoot (t : Target) : Exec NbtError (Bytes × Meter) (Option NbtCompound) := do
  let id ← Exec.beside readTagId
  match id with
  | .endTag => pure none
  | .compound => do
    let compound ← meteredRootBody t
    pure (some compound)
  | other => Exec.throw (.rootNotCompound other)

/-! ## They are the readers -/

open Exec (Erases erases_pure erases_throw erases_beside)

/-- `meteredPayload` at one depth. -/
def PayloadErases (t : Target) (depth : Nat) : Prop :=
  ∀ id, Erases (meteredPayload t id depth) (readPayload t id depth)

theorem erases_compoundBody_of {t : Target} {depth : Nat} (hpayload : PayloadErases t depth) :
    Erases (meteredCompoundBody t depth) (readCompoundBody t depth) := by
  rw [meteredCompoundBody, readCompoundBody]
  refine Erases.activation (Erases.ite (erases_throw _) ?_) false depth
  refine Exec.erases_loop (fun c => ?_) (fun s : ReadState => s.src.length) NbtCompound.new
  refine (erases_beside _).bind fun id => Erases.ite ?_ ?_
  · exact (erases_beside _).bind fun _ => erases_pure _
  · exact (erases_beside _).bind fun name => (hpayload id).bind fun value => erases_pure _

theorem payloadErases_of {t : Target} {depth : Nat} (hnext : PayloadErases t (depth + 1)) :
    PayloadErases t depth := by
  intro id
  rw [meteredPayload.eq_def, readPayload.eq_def]
  refine Erases.activation (Erases.ite (erases_throw _) ?_) true depth
  refine (erases_beside _).bind fun _ => ?_
  cases id with
  | endTag => exact erases_throw _
  | byte => exact erases_beside _
  | short => exact erases_beside _
  | int => exact erases_beside _
  | long => exact erases_beside _
  | float => exact erases_beside _
  | double => exact erases_beside _
  | string => exact (erases_beside _).bind fun _ => erases_pure _
  | byteArray => exact (erases_beside _).bind fun _ => (erases_beside _).bind fun _ => erases_pure _
  | intArray => exact (erases_beside _).bind fun _ => (erases_beside _).bind fun _ => erases_pure _
  | longArray => exact (erases_beside _).bind fun _ => (erases_beside _).bind fun _ => erases_pure _
  | compound =>
      refine (erases_beside _).bind fun _ => ?_
      exact (erases_compoundBody_of hnext).bind fun _ => erases_pure _
  | list =>
      refine (erases_beside _).bind fun elementType => (erases_beside _).bind fun len => ?_
      refine Erases.ite (erases_throw _) (Erases.bind (Erases.times ?_ len) fun _ => erases_pure _)
      exact (erases_beside _).bind fun _ => hnext elementType

theorem payloadErases (t : Target) (depth : Nat) : PayloadErases t depth := by
  by_cases hdepth : depth ≤ maxDepth
  · exact payloadErases_of (payloadErases t (depth + 1))
  · intro id
    rw [meteredPayload.eq_def, readPayload.eq_def, if_pos (Nat.not_le.mp hdepth), if_pos (Nat.not_le.mp hdepth)]
    exact (erases_throw _).activation true depth
termination_by maxDepth + 1 - depth

theorem erases_rootBody (t : Target) : Erases (meteredRootBody t) (readRootBody t) := by
  intro src g
  have herases := erases_compoundBody_of (payloadErases t 1) ⟨src, 0⟩ g
  unfold meteredRootBody readRootBody
  rw [← herases]
  cases meteredCompoundBody t 1 (⟨src, 0⟩, g) <;> rfl

theorem erases_networkRoot (t : Target) : Erases (meteredNetworkRoot t) (readNetworkRoot t) :=
  (erases_beside _).bind fun _ => Erases.ite (erases_throw _) (erases_rootBody t)

theorem erases_namedRoot (t : Target) : Erases (meteredNamedRoot t) (readNamedRoot t) := by
  refine (erases_beside _).bind fun _ => Erases.ite (erases_throw _) ?_
  exact (erases_beside _).bind fun name => (erases_rootBody t).bind fun _ => erases_pure _

theorem erases_optionalNetworkRoot (t : Target) :
    Erases (meteredOptionalNetworkRoot t) (readOptionalNetworkRoot t) := by
  refine (erases_beside _).bind fun id => ?_
  cases id with
  | endTag => exact erases_pure none
  | compound => exact (erases_rootBody t).bind fun _ => erases_pure _
  | _ => exact erases_throw _

/-! ## What the readers' meters say -/

/-- What holds of the meter when a reader is done, with a document or with an error. -/
structure Limited (g : Meter) : Prop where
  within : g.Within (maxDepth + 1) (2 * maxDepth + 1)
  entered : g.entered ≤ maxTotalNodes + 1

/-- What holds while the readers go on, with `a` activations open: every payload entered is a node counted. -/
structure Counting (a : Nat) (p : ReadState × Meter) : Prop where
  within : p.2.Within (maxDepth + 1) (2 * maxDepth + 1)
  active : p.2.active = a
  entered : p.2.entered = p.1.nodes
  budget : p.1.nodes ≤ maxTotalNodes

theorem Counting.limited {a : Nat} {p : ReadState × Meter} (h : Counting a p) : Limited p.2 :=
  ⟨h.within, by rw [h.entered]; exact Nat.le_succ_of_le h.budget⟩

theorem Limited.leave {g : Meter} (h : Limited g) : Limited g.leave := ⟨h.within.leave, h.entered⟩

theorem Counting.leave {a : Nat} {p : ReadState × Meter} (h : Counting (a + 1) p) :
    Counting a (p.1, p.2.leave) :=
  ⟨h.within.leave, by rw [Meter.leave, h.active]; rfl, h.entered, h.budget⟩

/-- A compound body is entered. -/
theorem Counting.enterBody {a depth : Nat} {p : ReadState × Meter} (h : Counting a p)
    (hdepth : depth ≤ maxDepth + 1) (ha : a + 2 ≤ 2 * depth) :
    Counting (a + 1) (p.1, p.2.enter false depth) := by
  have hactive := h.active
  exact ⟨h.within.enter false hdepth (by omega), by rw [Meter.enter, h.active], h.entered, h.budget⟩

/-- `m` keeps the count with `a` activations open, and stays within the limits when it fails. -/
def Keeps {α : Type} (a : Nat) (m : Exec NbtError (ReadState × Meter) α) : Prop :=
  ∀ p, Counting a p → (m p).Respects (fun _ => Counting a) (fun _ p' => Limited p'.2)

section Keeps

variable {α β : Type} {a : Nat}

theorem keeps_pure (value : α) : Keeps a (pure value) := fun _ h => h

theorem keeps_throw (e : NbtError) : Keeps a (Exec.throw e : Exec NbtError (ReadState × Meter) α) :=
  fun _ h => h.limited

theorem Keeps.bind {m : Exec NbtError (ReadState × Meter) α} {f : α → Exec NbtError (ReadState × Meter) β}
    (hm : Keeps a m) (hf : ∀ value, Keeps a (f value)) : Keeps a (m >>= f) :=
  fun p h => (hm p h).bind fun value p' h' => hf value p' h'

theorem Keeps.ite {c : Prop} [Decidable c] {m n : Exec NbtError (ReadState × Meter) α} (hm : Keeps a m)
    (hn : Keeps a n) : Keeps a (if c then m else n) := by
  split
  · exact hm
  · exact hn

/-- What counts no node. -/
theorem keeps_beside {m : Exec NbtError ReadState α}
    (hm : ∀ s, (m s).Respects (fun _ s' => s'.nodes = s.nodes) (fun _ _ => True)) :
    Keeps a (Exec.beside m) := by
  intro p h
  refine Exec.beside_respects ((hm p.1).mono (fun _ s hnodes => ?_) fun _ _ _ => h.limited)
  exact ⟨h.within, h.active, h.entered.trans hnodes.symm, by rw [hnodes]; exact h.budget⟩

theorem keeps_onSrc (m : Exec NbtError Bytes α) : Keeps a (Exec.beside (onSrc m)) := by
  refine keeps_beside fun s => ?_
  unfold onSrc Exec.zoom
  cases m s.src with
  | ok value src => rfl
  | error e src => trivial
  | panic => trivial
  | diverge => trivial

theorem keeps_usize (t : Target) (n : Nat) : Keeps a (Exec.beside (Exec.usize t n)) := by
  refine keeps_beside fun s => ?_
  unfold Exec.usize
  split
  · rfl
  · trivial

theorem keeps_rejectDuplicateKeys (c : NbtCompound) : Keeps a (Exec.beside (rejectDuplicateKeys c)) := by
  refine keeps_beside fun s => (rejectDuplicateKeys_spec c s).respects.mono ?_ fun _ _ _ => trivial
  intro _ s' hpost
  rw [hpost.1]

/-- An activation opens one more, and closes it when it is left either way. -/
theorem counting_activation {counted : Bool} {depth : Nat} {m : Exec NbtError (ReadState × Meter) α}
    {p : ReadState × Meter}
    (hm : (m (p.1, p.2.enter counted depth)).Respects (fun _ => Counting (a + 1)) (fun _ p' => Limited p'.2)) :
    (Exec.activation counted depth m p).Respects (fun _ => Counting a) (fun _ p' => Limited p'.2) :=
  Exec.activation_respects (hm.mono (fun _ _ hcounting => hcounting.leave) fun _ _ hlimited => hlimited.leave)

end Keeps

/-- A payload is entered before its node is counted. If the count fails, there was one payload too many. -/
theorem counting_enterPayload (t : Target) {a depth : Nat} {p : ReadState × Meter} (h : Counting a p)
    (hdepth : depth ≤ maxDepth + 1) (ha : a ≤ 2 * maxDepth) :
    (Exec.beside (countNode t) (p.1, p.2.enter true depth)).Respects (fun _ => Counting (a + 1))
      (fun _ p' => Limited p'.2) := by
  have hactive := h.active
  have hwithin : (p.2.enter true depth).Within (maxDepth + 1) (2 * maxDepth + 1) :=
    h.within.enter true hdepth (by omega)
  have hentered : (p.2.enter true depth).entered = p.1.nodes + 1 := by rw [← h.entered]; rfl
  refine Exec.beside_respects ((countNode_spec t h.budget).respects.mono (fun _ s hpost => ?_) fun _ _ _ => ?_)
  · obtain ⟨rfl, hbudget⟩ := hpost
    exact ⟨hwithin, by rw [← h.active]; rfl, hentered, hbudget⟩
  · exact ⟨hwithin, by rw [hentered]; exact Nat.succ_le_succ h.budget⟩

/-- `meteredPayload` at one depth: what was open before is open after it. -/
def PayloadKeeps (t : Target) (depth : Nat) : Prop :=
  ∀ (id : TagId) (a : Nat), a + 1 ≤ 2 * depth → a ≤ 2 * maxDepth → Keeps a (meteredPayload t id depth)

theorem keeps_compoundBody {t : Target} {depth : Nat} (hpayload : PayloadKeeps t depth)
    (hdepth : depth ≤ maxDepth + 1) {a : Nat} (ha : a + 2 ≤ 2 * depth) :
    Keeps a (meteredCompoundBody t depth) := by
  intro p h
  rw [meteredCompoundBody]
  have hentered := h.enterBody hdepth ha
  refine counting_activation ?_
  rw [Exec.ite_apply]
  split_ifs with hdeep
  · exact hentered.limited
  · refine Exec.loop_respects (Counting (a + 1)) _ (fun c => ?_) _ _ hentered
    refine (keeps_onSrc readTagId).bind fun id => Keeps.ite ?_ ?_
    · exact (keeps_rejectDuplicateKeys c).bind fun _ => keeps_pure _
    · refine (keeps_onSrc readNbtString).bind fun name => ?_
      exact (hpayload id (a + 1) (by omega) (by omega)).bind fun value => keeps_pure _

/-- One level of `meteredPayload`, given the level below. -/
theorem payloadKeeps_of {t : Target} {depth : Nat} (hdepth : depth ≤ maxDepth)
    (hnext : PayloadKeeps t (depth + 1)) : PayloadKeeps t depth := by
  intro id a ha hmax p h
  rw [meteredPayload.eq_def, if_neg (Nat.not_lt.mpr hdepth)]
  refine counting_activation ((counting_enterPayload t h (by omega) hmax).bind fun _ => ?_)
  have hfield : ∀ {α : Type} (m : Exec NbtError Bytes α) (f : α → NbtTag),
      Keeps (a + 1) (Exec.beside (onSrc m) >>= fun value => pure (f value)) := by
    intro α m f
    exact (keeps_onSrc m).bind fun _ => keeps_pure _
  cases id with
  | endTag => exact keeps_throw _
  | byte => exact keeps_onSrc _
  | short => exact keeps_onSrc _
  | int => exact keeps_onSrc _
  | long => exact keeps_onSrc _
  | float => exact keeps_onSrc _
  | double => exact keeps_onSrc _
  | string => exact hfield _ _
  | byteArray => exact (keeps_onSrc _).bind fun _ => hfield _ _
  | intArray => exact (keeps_onSrc _).bind fun _ => hfield _ _
  | longArray => exact (keeps_onSrc _).bind fun _ => hfield _ _
  | compound =>
      refine (keeps_usize t _).bind fun _ => ?_
      exact (keeps_compoundBody hnext (by omega) (by omega)).bind fun _ => keeps_pure _
  | list =>
      refine (keeps_onSrc _).bind fun elementType => (keeps_onSrc _).bind fun len => ?_
      refine Keeps.ite (keeps_throw _) (Keeps.bind ?_ fun _ => keeps_pure _)
      refine Exec.times_respects (Counting (a + 1)) ?_ len
      exact (keeps_usize t _).bind fun _ => hnext elementType (a + 1) (by omega) (by omega)

/-- Every depth that is called, by downward induction from the limit, where a payload is only entered. -/
theorem payloadKeeps (t : Target) (depth : Nat) (hdepth : depth ≤ maxDepth + 1) : PayloadKeeps t depth := by
  by_cases hle : depth ≤ maxDepth
  · exact payloadKeeps_of hle (payloadKeeps t (depth + 1) (by omega))
  · intro id a ha hmax p h
    rw [meteredPayload.eq_def, if_pos (Nat.not_le.mp hle)]
    have hactive := h.active
    refine counting_activation ⟨h.within.enter true hdepth (by omega), ?_⟩
    show p.2.entered + 1 ≤ maxTotalNodes + 1
    rw [h.entered]
    exact Nat.succ_le_succ h.budget
termination_by maxDepth + 1 - depth

/-! ## Roots -/

theorem limited_start : Limited Meter.start := ⟨⟨Nat.zero_le _, Nat.zero_le _⟩, Nat.zero_le _⟩

theorem limited_rootBody (t : Target) (src : Bytes) :
    (meteredRootBody t (src, .start)).Respects (fun _ p => Limited p.2) (fun _ p => Limited p.2) := by
  have hstart : Counting 0 (⟨src, 0⟩, Meter.start) := ⟨limited_start.within, rfl, rfl, Nat.zero_le _⟩
  have hbody := keeps_compoundBody (payloadKeeps t 1 (by decide)) (by decide) (by decide) _ hstart
  unfold meteredRootBody
  cases hmetered : meteredCompoundBody t 1 (⟨src, 0⟩, Meter.start) with
  | ok c p => rw [hmetered] at hbody; exact hbody.limited
  | error e p => rw [hmetered] at hbody; exact hbody
  | panic => trivial
  | diverge => trivial

/-- What stands before the body of a root leaves the meter alone. -/
theorem limited_beside {α β : Type} (m : Exec NbtError Bytes α)
    {f : α → Exec NbtError (Bytes × Meter) β} (src : Bytes)
    (hf : ∀ value src', (f value (src', .start)).Respects (fun _ p => Limited p.2) (fun _ p => Limited p.2)) :
    ((Exec.beside m >>= f) (src, .start)).Respects (fun _ p => Limited p.2) (fun _ p => Limited p.2) := by
  have hm : (Exec.beside m (src, Meter.start)).Respects (fun _ p => p.2 = .start) (fun _ p => Limited p.2) := by
    refine Exec.beside_respects ?_
    cases m src with
    | ok value src' => rfl
    | error e src' => exact limited_start
    | panic => trivial
    | diverge => trivial
  refine hm.bind fun value p hp => ?_
  obtain ⟨src', g⟩ := p
  obtain rfl : g = .start := hp
  exact hf value src'

theorem limited_networkRoot (t : Target) (src : Bytes) :
    (meteredNetworkRoot t (src, .start)).Respects (fun _ p => Limited p.2) (fun _ p => Limited p.2) := by
  refine limited_beside readTagId src fun id src' => ?_
  rw [Exec.ite_apply]
  split_ifs
  · exact limited_start
  · exact limited_rootBody t src'

theorem limited_namedRoot (t : Target) (src : Bytes) :
    (meteredNamedRoot t (src, .start)).Respects (fun _ p => Limited p.2) (fun _ p => Limited p.2) := by
  refine limited_beside readTagId src fun id src₁ => ?_
  rw [Exec.ite_apply]
  split_ifs
  · exact limited_start
  · refine limited_beside readNbtString src₁ fun name src₂ => ?_
    exact (limited_rootBody t src₂).bind fun _ p hp => hp

theorem limited_optionalNetworkRoot (t : Target) (src : Bytes) :
    (meteredOptionalNetworkRoot t (src, .start)).Respects (fun _ p => Limited p.2) (fun _ p => Limited p.2) := by
  refine limited_beside readTagId src fun id src' => ?_
  cases id with
  | endTag => exact limited_start
  | compound => exact (limited_rootBody t src').bind fun _ p hp => hp
  | _ => exact limited_start

end Pyrite.Nbt
