import Pyrite.Nbt.ReadRecursion
import Pyrite.Nbt.Write

set_option autoImplicit false

/-! # How far the writers recurse

The writers mirror the readers' guards, so the same limits hold of them, for every compound, however deep:
a compound that nests too far is refused at the limit and not where the stack ends. With what
`Pyrite.Nbt.ReadRecursion` says of the readers, `recursion_bounded` is about the whole codec. -/

namespace Pyrite.Nbt

open Wire

/-! ## The metered writers -/

/-- A writer that recurses no further. -/
def leaf {α : Type} (x : Put NbtError α) : Exec NbtError (Bytes × Meter) α := Exec.beside x.toExec

mutual

/-- `writeCompoundBody` -/
def meteredWriteCompoundBody : NbtCompound → Nat → Exec NbtError (Bytes × Meter) Unit
  | ⟨entries⟩, depth => Exec.activation false depth
    (if depth > maxDepth then Exec.throw (.depthExceeded maxDepth)
    else do
      meteredWriteEntries entries depth
      leaf (Put.word TagId.endTag.toU8))

/-- `writeEntries` -/
def meteredWriteEntries : List (String × NbtTag) → Nat → Exec NbtError (Bytes × Meter) Unit
  | [], _ => pure ()
  | (name, tag) :: rest, depth => do
    leaf (Put.word tag.id.toU8)
    leaf (writeNbtString name)
    meteredWritePayload tag depth
    meteredWriteEntries rest depth

/-- `writePayload` -/
def meteredWritePayload : NbtTag → Nat → Exec NbtError (Bytes × Meter) Unit
  | tag, depth => Exec.activation true depth
    (if depth > maxDepth then Exec.throw (.depthExceeded maxDepth)
    else match tag with
      | .byte value => leaf (Put.word value)
      | .short value => leaf (Put.word value)
      | .int value => leaf (Put.word value)
      | .long value => leaf (Put.word value)
      | .float bits => leaf (Put.word bits)
      | .double bits => leaf (Put.word bits)
      | .byteArray value => do
        let len ← leaf (Put.lift (arrayLen value.length))
        leaf (Put.word len)
        leaf (Put.slice value)
      | .string value => leaf (writeNbtString value)
      | .list ⟨elementType, items⟩ => do
        leaf (Put.word elementType.toU8)
        let len ← leaf (Put.lift (arrayLen items.length))
        leaf (Put.word len)
        meteredWriteItems items (depth + 1)
      | .compound compound => meteredWriteCompoundBody compound (depth + 1)
      | .intArray values => do
        let len ← leaf (Put.lift (arrayLen values.length))
        leaf (Put.word len)
        leaf (writeWords values)
      | .longArray values => do
        let len ← leaf (Put.lift (arrayLen values.length))
        leaf (Put.word len)
        leaf (writeWords values))

/-- `writeItems` -/
def meteredWriteItems : List NbtTag → Nat → Exec NbtError (Bytes × Meter) Unit
  | [], _ => pure ()
  | item :: rest, depth => do
    meteredWritePayload item depth
    meteredWriteItems rest depth

end

/-- `writeNetworkRoot` -/
def meteredWriteNetworkRoot (value : NbtCompound) : Exec NbtError (Bytes × Meter) Unit := do
  leaf (Put.word TagId.compound.toU8)
  meteredWriteCompoundBody value 1

/-- `writeNamedRoot` -/
def meteredWriteNamedRoot (name : String) (value : NbtCompound) : Exec NbtError (Bytes × Meter) Unit := do
  leaf (Put.word TagId.compound.toU8)
  leaf (writeNbtString name)
  meteredWriteCompoundBody value 1

/-! ## They are the writers -/

section Erasure

variable {α β : Type}

/-- Without the meter, `m` is the writer `x`. -/
def IsWriter (m : Exec NbtError (Bytes × Meter) α) (x : Put NbtError α) : Prop := Exec.Erases m x.toExec

theorem isWriter_leaf (x : Put NbtError α) : IsWriter (leaf x) x := Exec.erases_beside _

theorem isWriter_pure (a : α) : IsWriter (pure a) (pure a) := by
  rw [IsWriter, Put.toExec_pure]
  exact Exec.erases_pure a

theorem isWriter_throw (e : NbtError) :
    IsWriter (Exec.throw e : Exec NbtError (Bytes × Meter) α) (Put.throw e) := by
  rw [IsWriter, Put.toExec_throw]
  exact Exec.erases_throw e

theorem IsWriter.bind {m : Exec NbtError (Bytes × Meter) α} {x : Put NbtError α}
    {f : α → Exec NbtError (Bytes × Meter) β} {g : α → Put NbtError β} (hm : IsWriter m x)
    (hf : ∀ a, IsWriter (f a) (g a)) : IsWriter (m >>= f) (x >>= g) := by
  rw [IsWriter, Put.toExec_bind]
  exact Exec.Erases.bind hm hf

/-- A guarded activation. -/
theorem IsWriter.activation {m : Exec NbtError (Bytes × Meter) α} {x : Put NbtError α} (h : IsWriter m x)
    (counted : Bool) (depth : Nat) :
    IsWriter (Exec.activation counted depth
        (if depth > maxDepth then Exec.throw (.depthExceeded maxDepth) else m))
      (if depth > maxDepth then Put.throw (.depthExceeded maxDepth) else x) := by
  split
  · exact Exec.Erases.activation (isWriter_throw _) counted depth
  · exact Exec.Erases.activation h counted depth

end Erasure

theorem isWriter_items {items : List NbtTag} {depth : Nat}
    (hitems : ∀ item ∈ items, IsWriter (meteredWritePayload item depth) (writePayload item depth)) :
    IsWriter (meteredWriteItems items depth) (writeItems items depth) := by
  induction items with
  | nil => exact isWriter_pure ()
  | cons item rest ih =>
      rw [meteredWriteItems, writeItems]
      refine (hitems item List.mem_cons_self).bind fun _ => ?_
      exact ih fun item' hitem' => hitems item' (List.mem_cons_of_mem _ hitem')

theorem isWriter_entries {entries : List (String × NbtTag)} {depth : Nat}
    (hentries : ∀ entry ∈ entries, IsWriter (meteredWritePayload entry.2 depth) (writePayload entry.2 depth)) :
    IsWriter (meteredWriteEntries entries depth) (writeEntries entries depth) := by
  induction entries with
  | nil => exact isWriter_pure ()
  | cons entry rest ih =>
      obtain ⟨name, tag⟩ := entry
      rw [meteredWriteEntries, writeEntries]
      refine (isWriter_leaf _).bind fun _ => (isWriter_leaf _).bind fun _ => ?_
      refine (hentries (name, tag) List.mem_cons_self).bind fun _ => ?_
      exact ih fun entry' hentry' => hentries entry' (List.mem_cons_of_mem _ hentry')

theorem isWriter_compoundBody {c : NbtCompound} {depth : Nat}
    (hentries : ∀ entry ∈ c.entries, IsWriter (meteredWritePayload entry.2 depth) (writePayload entry.2 depth)) :
    IsWriter (meteredWriteCompoundBody c depth) (writeCompoundBody c depth) := by
  obtain ⟨entries⟩ := c
  rw [meteredWriteCompoundBody, writeCompoundBody]
  refine IsWriter.activation ?_ false depth
  exact (isWriter_entries hentries).bind fun _ => isWriter_leaf _

theorem isWriter_payload (tag : NbtTag) :
    ∀ depth, IsWriter (meteredWritePayload tag depth) (writePayload tag depth) := by
  induction tag using NbtTag.induction with
  | step tag ih =>
      intro depth
      rw [meteredWritePayload.eq_def, writePayload.eq_def]
      refine IsWriter.activation ?_ true depth
      cases tag with
      | byte value => exact isWriter_leaf _
      | short value => exact isWriter_leaf _
      | int value => exact isWriter_leaf _
      | long value => exact isWriter_leaf _
      | float bits => exact isWriter_leaf _
      | double bits => exact isWriter_leaf _
      | string value => exact isWriter_leaf _
      | byteArray value =>
          exact (isWriter_leaf _).bind fun _ => (isWriter_leaf _).bind fun _ => isWriter_leaf _
      | intArray values =>
          exact (isWriter_leaf _).bind fun _ => (isWriter_leaf _).bind fun _ => isWriter_leaf _
      | longArray values =>
          exact (isWriter_leaf _).bind fun _ => (isWriter_leaf _).bind fun _ => isWriter_leaf _
      | compound c => exact isWriter_compoundBody fun entry hmem => ih entry.2 (List.mem_map_of_mem hmem) _
      | list l =>
          obtain ⟨elementType, items⟩ := l
          refine (isWriter_leaf _).bind fun _ => (isWriter_leaf _).bind fun _ => (isWriter_leaf _).bind fun _ => ?_
          exact isWriter_items fun item hmem => ih item hmem _

theorem isWriter_networkRoot (d : NbtCompound) :
    IsWriter (meteredWriteNetworkRoot d) (writeNetworkRoot d) := by
  refine (isWriter_leaf _).bind fun _ => ?_
  exact isWriter_compoundBody fun entry _ => isWriter_payload entry.2 1

theorem isWriter_namedRoot (name : String) (d : NbtCompound) :
    IsWriter (meteredWriteNamedRoot name d) (writeNamedRoot name d) := by
  refine (isWriter_leaf _).bind fun _ => (isWriter_leaf _).bind fun _ => ?_
  exact isWriter_compoundBody fun entry _ => isWriter_payload entry.2 1

/-! ## What the writers' meters say -/

/-- What holds of the meter at any time, and when a writer has failed. -/
def Shallow (g : Meter) : Prop := g.Within (maxDepth + 1) (2 * maxDepth + 1)

/-- `m` opens and closes its activations within the limits, from `a` open ones. -/
def Closes {α : Type} (a : Nat) (m : Exec NbtError (Bytes × Meter) α) : Prop :=
  ∀ p, Shallow p.2 → p.2.active = a →
    (m p).Respects (fun _ p' => Shallow p'.2 ∧ p'.2.active = a) (fun _ p' => Shallow p'.2)

section Closes

variable {α β : Type} {a : Nat}

theorem closes_leaf (x : Put NbtError α) : Closes a (leaf x) := by
  intro p hshallow hactive
  refine Exec.beside_respects ?_
  unfold Put.toExec
  cases x.result with
  | ok value => exact ⟨hshallow, hactive⟩
  | error e => exact hshallow

theorem closes_pure (value : α) : Closes a (pure value) := fun _ hshallow hactive => ⟨hshallow, hactive⟩

theorem Closes.bind {m : Exec NbtError (Bytes × Meter) α} {f : α → Exec NbtError (Bytes × Meter) β}
    (hm : Closes a m) (hf : ∀ value, Closes a (f value)) : Closes a (m >>= f) :=
  fun p hshallow hactive => (hm p hshallow hactive).bind fun value p' hp' => hf value p' hp'.1 hp'.2

/-- A guarded activation: its body is looked at only below the limit. -/
theorem closes_activation {m : Exec NbtError (Bytes × Meter) α} {depth : Nat} (hdepth : depth ≤ maxDepth + 1)
    (ha : a ≤ 2 * maxDepth) (hm : depth ≤ maxDepth → Closes (a + 1) m) (counted : Bool) :
    Closes a (Exec.activation counted depth
      (if depth > maxDepth then Exec.throw (.depthExceeded maxDepth) else m)) := by
  intro p hshallow hactive
  have hentered : Shallow (p.2.enter counted depth) := hshallow.enter counted hdepth (by omega)
  refine Exec.activation_respects ?_
  rw [Exec.ite_apply]
  split_ifs with hdeep
  · exact hentered.leave
  · have hbody := hm (Nat.not_lt.mp hdeep) (p.1, p.2.enter counted depth) hentered (by rw [← hactive]; rfl)
    refine hbody.mono (fun _ p' hp' => ⟨hp'.1.leave, ?_⟩) fun _ p' hp' => hp'.leave
    rw [Meter.leave, hp'.2]
    rfl

end Closes

/-- `meteredWritePayload` for one tag, at every depth that it is called with. -/
def PayloadCloses (tag : NbtTag) : Prop :=
  ∀ depth a, depth ≤ maxDepth + 1 → a + 1 ≤ 2 * depth → a ≤ 2 * maxDepth →
    Closes a (meteredWritePayload tag depth)

theorem closes_items {items : List NbtTag} (hitems : ∀ item ∈ items, PayloadCloses item) {depth a : Nat}
    (hdepth : depth ≤ maxDepth + 1) (ha : a + 1 ≤ 2 * depth) (hmax : a ≤ 2 * maxDepth) :
    Closes a (meteredWriteItems items depth) := by
  induction items with
  | nil => exact closes_pure ()
  | cons item rest ih =>
      rw [meteredWriteItems]
      refine (hitems item List.mem_cons_self depth a hdepth ha hmax).bind fun _ => ?_
      exact ih fun item' hitem' => hitems item' (List.mem_cons_of_mem _ hitem')

theorem closes_entries {entries : List (String × NbtTag)} (hentries : ∀ entry ∈ entries, PayloadCloses entry.2)
    {depth a : Nat} (hdepth : depth ≤ maxDepth + 1) (ha : a + 1 ≤ 2 * depth) (hmax : a ≤ 2 * maxDepth) :
    Closes a (meteredWriteEntries entries depth) := by
  induction entries with
  | nil => exact closes_pure ()
  | cons entry rest ih =>
      obtain ⟨name, tag⟩ := entry
      rw [meteredWriteEntries]
      refine (closes_leaf _).bind fun _ => (closes_leaf _).bind fun _ => ?_
      refine (hentries (name, tag) List.mem_cons_self depth a hdepth ha hmax).bind fun _ => ?_
      exact ih fun entry' hentry' => hentries entry' (List.mem_cons_of_mem _ hentry')

theorem closes_compoundBody {c : NbtCompound} (hentries : ∀ entry ∈ c.entries, PayloadCloses entry.2)
    {depth a : Nat} (hdepth : depth ≤ maxDepth + 1) (ha : a + 2 ≤ 2 * depth) :
    Closes a (meteredWriteCompoundBody c depth) := by
  obtain ⟨entries⟩ := c
  rw [meteredWriteCompoundBody]
  refine closes_activation hdepth (by omega) (fun hle => ?_) false
  exact (closes_entries hentries hdepth (by omega) (by omega)).bind fun _ => closes_leaf _

/-- `meteredWritePayload`, by induction on the tree. The depth goes up with it, and at the limit the tree
    is no longer looked at. -/
theorem payloadCloses (tag : NbtTag) : PayloadCloses tag := by
  induction tag using NbtTag.induction with
  | step tag ih =>
      intro depth a hdepth ha hmax
      rw [meteredWritePayload.eq_def]
      refine closes_activation hdepth hmax (fun hle => ?_) true
      cases tag with
      | byte value => exact closes_leaf _
      | short value => exact closes_leaf _
      | int value => exact closes_leaf _
      | long value => exact closes_leaf _
      | float bits => exact closes_leaf _
      | double bits => exact closes_leaf _
      | string value => exact closes_leaf _
      | byteArray value => exact (closes_leaf _).bind fun _ => (closes_leaf _).bind fun _ => closes_leaf _
      | intArray values => exact (closes_leaf _).bind fun _ => (closes_leaf _).bind fun _ => closes_leaf _
      | longArray values => exact (closes_leaf _).bind fun _ => (closes_leaf _).bind fun _ => closes_leaf _
      | compound c =>
          refine closes_compoundBody (fun entry hmem => ih entry.2 ?_) (by omega) (by omega)
          exact List.mem_map_of_mem hmem
      | list l =>
          obtain ⟨elementType, items⟩ := l
          refine (closes_leaf _).bind fun _ => (closes_leaf _).bind fun _ => (closes_leaf _).bind fun _ => ?_
          exact closes_items ih (by omega) (by omega) (by omega)

theorem closes_rootBody (d : NbtCompound) : Closes 0 (meteredWriteCompoundBody d 1) :=
  closes_compoundBody (fun entry _ => payloadCloses entry.2) (by decide) (by decide)

/-! ## The codec -/

/-- The metered reader is the reader, it ends on `src`, and its meter is within the limits. -/
def ReadBounded {α : Type} (metered : Exec NbtError (Bytes × Meter) α) (reader : Exec NbtError Bytes α)
    (src : Bytes) : Prop :=
  (∀ g, (metered (src, g)).forget = reader src) ∧
    (metered (src, .start)).Satisfies (fun _ p => Limited p.2) (fun _ p => Limited p.2)

theorem readBounded_of {α : Type} {metered : Exec NbtError (Bytes × Meter) α} {reader : Exec NbtError Bytes α}
    (herases : Exec.Erases metered reader) {src : Bytes}
    (hends : (reader src).Satisfies (fun _ _ => True) (fun _ _ => True))
    (hlimited : (metered (src, .start)).Respects (fun _ p => Limited p.2) (fun _ p => Limited p.2)) :
    ReadBounded metered reader src :=
  ⟨herases src, hlimited.satisfies (Outcome.ends_of_forget hends (herases src .start))⟩

/-- The same of a writer, from any bytes written before. -/
def WriteBounded (metered : Exec NbtError (Bytes × Meter) Unit) (writer : Put NbtError Unit) : Prop :=
  ∀ dst, (∀ g, (metered (dst, g)).forget = writer.toExec dst) ∧
    (metered (dst, .start)).Satisfies (fun _ p => Shallow p.2) (fun _ p => Shallow p.2)

theorem writeBounded_of {metered : Exec NbtError (Bytes × Meter) Unit} {writer : Put NbtError Unit}
    (hwriter : IsWriter metered writer) (hcloses : Closes 0 metered) : WriteBounded metered writer := by
  intro dst
  refine ⟨hwriter dst, ?_⟩
  have hends := Outcome.ends_of_forget (writer.toExec_ends dst) (hwriter dst .start)
  have hmeter := hcloses (dst, .start) limited_start.within rfl
  exact (hmeter.mono (fun _ _ hp => hp.1) fun _ _ hp => hp).satisfies hends

/-- **Recursion is bounded.** Whatever the bytes, the root readers end, with a document or an error; no
    activation of `read_compound_body` or `read_payload` gets a depth argument above `MAX_DEPTH + 1`, at most
    `2 * MAX_DEPTH + 1` of them are ever nested, and `read_payload` is entered at most `MAX_TOTAL_NODES + 1`
    times. Whatever the compound, the root writers end, within the same limits on depth and nesting. -/
theorem recursion_bounded (t : Target) :
    (∀ src, ReadBounded (meteredNetworkRoot t) (readNetworkRoot t) src ∧
      ReadBounded (meteredNamedRoot t) (readNamedRoot t) src ∧
      ReadBounded (meteredOptionalNetworkRoot t) (readOptionalNetworkRoot t) src) ∧
    (∀ d, WriteBounded (meteredWriteNetworkRoot d) (writeNetworkRoot d) ∧
      ∀ name, WriteBounded (meteredWriteNamedRoot name d) (writeNamedRoot name d)) := by
  refine ⟨fun src => ⟨?_, ?_, ?_⟩, fun d => ⟨?_, fun name => ?_⟩⟩
  · exact readBounded_of (erases_networkRoot t) (readNetworkRoot_spec t src).ends (limited_networkRoot t src)
  · exact readBounded_of (erases_namedRoot t) (readNamedRoot_spec t src).ends (limited_namedRoot t src)
  · exact readBounded_of (erases_optionalNetworkRoot t) (readOptionalNetworkRoot_spec t src).ends
      (limited_optionalNetworkRoot t src)
  · refine writeBounded_of (isWriter_networkRoot d) ((closes_leaf _).bind fun _ => ?_)
    exact closes_rootBody d
  · refine writeBounded_of (isWriter_namedRoot name d) ((closes_leaf _).bind fun _ => ?_)
    exact (closes_leaf _).bind fun _ => closes_rootBody d

end Pyrite.Nbt
