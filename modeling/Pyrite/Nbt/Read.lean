import Pyrite.Nbt.Tag

set_option autoImplicit false

/-! # Decoding NBT documents

`crates/nbt/src/read.rs`. Field readers work on the unread bytes alone; the two recursive readers also
carry `nodes`, the running total of tags, in a `ReadState`. Every partial primitive of the source
(`get_*`, `copy_to_slice`, `copy_to_bytes`, `pair[0]`, `depth + 1`, `*nodes += 1`) is the panicking one
of the library, behind the same guard as in the source.

`Vec::with_capacity` only reserves memory and is left out, together with `MAX_PREALLOC_ELEMENTS`. -/

namespace Pyrite.Nbt

open Wire

variable {σ : Type}

/-! ## Fields -/

/-- Read one type byte. -/
def readTagId : Exec NbtError Bytes TagId := do
  let remaining ← Exec.remaining
  if remaining = 0 then Exec.throw .unexpectedEof
  else do
    let value : UInt8 ← Exec.get
    Exec.ofExcept (TagId.tryFrom value)

/-- Read a length-prefixed UTF-8 string. -/
def readNbtString : Exec NbtError Bytes String := do
  let remaining ← Exec.remaining
  if remaining < 2 then Exec.throw .unexpectedEof
  else do
    let prefixLen : UInt16 ← Exec.get
    let len := prefixLen.toNat
    let remaining ← Exec.remaining
    if remaining < len then Exec.throw (.lengthExceedsInput len remaining)
    else do
      let bytes ← Exec.take len
      match fromUtf8 bytes with
      | some value => pure value
      | none => Exec.throw .invalidUtf8

/-- Read a signed 32-bit element count and check it against the input. -/
def readLength (t : Target) (minElementSize : Nat) : Exec NbtError Bytes Nat := do
  let remaining ← Exec.remaining
  if remaining < 4 then Exec.throw .unexpectedEof
  else do
    let declared : Int32 ← Exec.get
    let remaining ← Exec.remaining
    match Target.tryFromInt32 declared with
    | none => Exec.throw (.negativeLength declared)
    | some len =>
      match t.checkedMul len minElementSize with
      | none => Exec.throw (.lengthExceedsInput len remaining)
      | some required =>
        if required > remaining then Exec.throw (.lengthExceedsInput required remaining)
        else pure len

/-- Read a fixed-width value after checking the input holds it: the macro `fixed!`. -/
def fixed {α : Type} [Word α] (size : Nat) (variant : α → NbtTag) : Exec NbtError Bytes NbtTag := do
  let remaining ← Exec.remaining
  if remaining < size then Exec.throw .unexpectedEof
  else do
    let value : α ← Exec.get
    pure (variant value)

/-- The smallest number of bytes one list element can occupy. -/
def minElementSize : TagId → Nat
  | .endTag => 0
  | .byte => 1
  | .short => 2
  | .int => 4
  | .float => 4
  | .long => 8
  | .double => 8
  | _ => 1

/-! ## Duplicate names -/

/-- `windows(2)`: the adjacent pairs, each as a slice. -/
def windows2 {α : Type} : List α → List (List α)
  | a :: b :: rest => [a, b] :: windows2 (b :: rest)
  | _ => []

/-- The loop of `rejectDuplicateKeys`. -/
def rejectEqualPairs : List (List String) → Exec NbtError σ Unit
  | [] => pure ()
  | pair :: rest => do
    let fst ← Exec.index pair 0
    let snd ← Exec.index pair 1
    if fst = snd then Exec.throw (.duplicateKey fst)
    else rejectEqualPairs rest

/-- The order `str` sorts by: lexicographic on the UTF-8 bytes. -/
def strLe (a b : String) : Bool := decide (utf8 a ≤ utf8 b)

/-- Reject a compound holding two entries with the same name. -/
def rejectDuplicateKeys (compound : NbtCompound) : Exec NbtError σ Unit :=
  if compound.len < 2 then pure ()
  else rejectEqualPairs (windows2 (compound.names.mergeSort strLe))

/-! ## The recursive readers -/

/-- What the recursive readers work on: the unread bytes and the tags counted so far. -/
structure ReadState where
  src : Bytes
  nodes : Nat
  deriving DecidableEq, Repr

/-- Run a field reader on the unread bytes. -/
def onSrc {α : Type} (m : Exec NbtError Bytes α) : Exec NbtError ReadState α :=
  Exec.zoom ReadState.src (fun src s => { s with src }) m

/-- `*nodes += 1` and the check against the budget. -/
def countNode (t : Target) : Exec NbtError ReadState Unit := do
  let s ← Exec.state
  let nodes ← Exec.usize t (s.nodes + 1)
  Exec.setState { s with nodes }
  if nodes > maxTotalNodes then Exec.throw (.tooManyNodes maxTotalNodes)
  else pure ()

/-- One round of the loop in `readCompoundBody`, given the reader for entry values. -/
def readEntry (readValue : TagId → Exec NbtError ReadState NbtTag) (compound : NbtCompound) :
    Exec NbtError ReadState (NbtCompound ⊕ NbtCompound) := do
  let id ← onSrc readTagId
  if id = .endTag then do
    rejectDuplicateKeys compound
    pure (.inr compound)
  else do
    let name ← onSrc readNbtString
    let value ← readValue id
    pure (.inl (compound.push name value))

mutual

/-- Read a compound's entries up to its terminating `End`. Each round consumes its type byte, so the
    unread bytes bound the rounds. -/
def readCompoundBody (t : Target) (depth : Nat) : Exec NbtError ReadState NbtCompound :=
  if depth > maxDepth then Exec.throw (.depthExceeded maxDepth)
  else
    Exec.loop (fun s => s.src.length) (readEntry fun id => readPayload t id depth) NbtCompound.new
termination_by (maxDepth + 1 - depth, 1)

/-- Read one tag's payload, given its already-decoded type. -/
def readPayload (t : Target) (id : TagId) (depth : Nat) : Exec NbtError ReadState NbtTag :=
  if depth > maxDepth then Exec.throw (.depthExceeded maxDepth)
  else do
    countNode t
    match id with
    | .endTag => Exec.throw (.invalidListElementType .endTag)
    | .byte => onSrc (fixed 1 NbtTag.byte)
    | .short => onSrc (fixed 2 NbtTag.short)
    | .int => onSrc (fixed 4 NbtTag.int)
    | .long => onSrc (fixed 8 NbtTag.long)
    | .float => onSrc (fixed 4 NbtTag.float)
    | .double => onSrc (fixed 8 NbtTag.double)
    | .byteArray => do
      let len ← onSrc (readLength t 1)
      let value ← onSrc (Exec.take len)
      pure (.byteArray value)
    | .string => do
      let value ← onSrc readNbtString
      pure (.string value)
    | .list => do
      let elementType ← onSrc readTagId
      let len ← onSrc (readLength t (minElementSize elementType))
      if elementType = .endTag ∧ len ≠ 0 then Exec.throw (.invalidListElementType .endTag)
      else do
        let items ← Exec.times (do
          let _ ← Exec.usize t (depth + 1)
          readPayload t elementType (depth + 1)) len
        pure (.list (NbtList.fromParts elementType items))
    | .compound => do
      let _ ← Exec.usize t (depth + 1)
      let compound ← readCompoundBody t (depth + 1)
      pure (.compound compound)
    | .intArray => do
      let len ← onSrc (readLength t 4)
      let values ← onSrc (Exec.times (Exec.get : Exec NbtError Bytes Int32) len)
      pure (.intArray values)
    | .longArray => do
      let len ← onSrc (readLength t 8)
      let values ← onSrc (Exec.times (Exec.get : Exec NbtError Bytes Int64) len)
      pure (.longArray values)
termination_by (maxDepth + 1 - depth, 0)

end

/-! ## Roots -/

/-- Read the root compound's body with a fresh node count. -/
def readRootBody (t : Target) : Exec NbtError Bytes NbtCompound := fun src =>
  match readCompoundBody t 1 ⟨src, 0⟩ with
  | .ok compound s => .ok compound s.src
  | .error e s => .error e s.src
  | .panic => .panic
  | .diverge => .diverge

/-- Read a document in the network form: a type byte, then the payload. -/
def readNetworkRoot (t : Target) : Exec NbtError Bytes NbtCompound := do
  let id ← readTagId
  if id ≠ .compound then Exec.throw (.rootNotCompound id)
  else readRootBody t

/-- Read a document in the file form: a type byte, a name, then the payload. -/
def readNamedRoot (t : Target) : Exec NbtError Bytes (String × NbtCompound) := do
  let id ← readTagId
  if id ≠ .compound then Exec.throw (.rootNotCompound id)
  else do
    let name ← readNbtString
    let compound ← readRootBody t
    pure (name, compound)

/-- Read a network-form document that may be absent: a lone `End` is no document. -/
def readOptionalNetworkRoot (t : Target) : Exec NbtError Bytes (Option NbtCompound) := do
  let id ← readTagId
  match id with
  | .endTag => pure none
  | .compound => do
    let compound ← readRootBody t
    pure (some compound)
  | other => Exec.throw (.rootNotCompound other)

end Pyrite.Nbt
