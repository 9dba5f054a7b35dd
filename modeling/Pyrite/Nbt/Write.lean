import Pyrite.Nbt.Tag

set_option autoImplicit false

/-! # Encoding NBT documents

`crates/nbt/src/write.rs`. The writers are `Put` computations, so a writer that fails leaves the bytes
it has already appended. The loops over entries and items are the recursive `writeEntries` and
`writeItems`. -/

namespace Pyrite.Nbt

open Wire

/-- Write a length-prefixed UTF-8 string. -/
def writeNbtString (value : String) : Put NbtError Unit := do
  let len := (utf8 value).length
  let len ← Put.lift (if len < 65536 then .ok (UInt16.ofNat len) else .error (.stringTooLong len))
  Put.word len
  Put.slice (utf8 value)

/-- Convert a collection length to the `i32` the format uses. -/
def arrayLen (len : Nat) : Except NbtError Int32 :=
  if len < 2147483648 then .ok (Int32.ofNat len) else .error (.arrayTooLong len)

/-- Write the elements of an integer array. -/
def writeWords {α : Type} [Word α] : List α → Put NbtError Unit
  | [] => pure ()
  | value :: values => do
    Put.word value
    writeWords values

mutual

/-- Write a compound's entries followed by the terminating `End`. -/
def writeCompoundBody : NbtCompound → Nat → Put NbtError Unit
  | ⟨entries⟩, depth =>
    if depth > maxDepth then Put.throw (.depthExceeded maxDepth)
    else do
      writeEntries entries depth
      Put.word TagId.endTag.toU8

/-- The entry loop of `writeCompoundBody`. -/
def writeEntries : List (String × NbtTag) → Nat → Put NbtError Unit
  | [], _ => pure ()
  | (name, tag) :: rest, depth => do
    Put.word tag.id.toU8
    writeNbtString name
    writePayload tag depth
    writeEntries rest depth

/-- Write a tag's payload, without its type byte or name. -/
def writePayload : NbtTag → Nat → Put NbtError Unit
  | tag, depth =>
    if depth > maxDepth then Put.throw (.depthExceeded maxDepth)
    else match tag with
      | .byte value => Put.word value
      | .short value => Put.word value
      | .int value => Put.word value
      | .long value => Put.word value
      | .float bits => Put.word bits
      | .double bits => Put.word bits
      | .byteArray value => do
        Put.word (← Put.lift (arrayLen value.length))
        Put.slice value
      | .string value => writeNbtString value
      | .list ⟨elementType, items⟩ => do
        Put.word elementType.toU8
        Put.word (← Put.lift (arrayLen items.length))
        writeItems items (depth + 1)
      | .compound compound => writeCompoundBody compound (depth + 1)
      | .intArray values => do
        Put.word (← Put.lift (arrayLen values.length))
        writeWords values
      | .longArray values => do
        Put.word (← Put.lift (arrayLen values.length))
        writeWords values

/-- The element loop of `writePayload`. -/
def writeItems : List NbtTag → Nat → Put NbtError Unit
  | [], _ => pure ()
  | item :: rest, depth => do
    writePayload item depth
    writeItems rest depth

end

/-- Write a document in the network form: a type byte, then the payload. -/
def writeNetworkRoot (value : NbtCompound) : Put NbtError Unit := do
  Put.word TagId.compound.toU8
  writeCompoundBody value 1

/-- Write a document in the file form: a type byte, a name, then the payload. -/
def writeNamedRoot (name : String) (value : NbtCompound) : Put NbtError Unit := do
  Put.word TagId.compound.toU8
  writeNbtString name
  writeCompoundBody value 1

end Pyrite.Nbt
