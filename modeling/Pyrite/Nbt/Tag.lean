import Pyrite.Wire.Host

set_option autoImplicit false

/-! # The NBT value tree

The data model of `crates/nbt/src/tag.rs` and the errors of `error.rs`. Floats are carried as their
bit patterns; `ByteArray` is the list of its bytes. `Utf8Error`, the payload of `InvalidUtf8`, is left
out: nothing reads it.

The three types are mutually recursive, as in the source. What a compound or a list may hold is not
part of their types: `push` and `fromParts`, the decoder's back doors, can build values that break the
rules the public constructors keep. `Pyrite.Nbt.Invariant` says which values are good and proves that
only good ones come out. -/

namespace Pyrite.Nbt

/-- `MAX_DEPTH` -/
def maxDepth : Nat := 512

/-- `MAX_TOTAL_NODES` -/
def maxTotalNodes : Nat := 65536

/-- A tag's wire identifier. `End` is a structural marker, not a value. -/
inductive TagId where
  | endTag
  | byte
  | short
  | int
  | long
  | float
  | double
  | byteArray
  | string
  | list
  | compound
  | intArray
  | longArray
  deriving DecidableEq, Repr

/-- Every way NBT encoding or decoding can fail. -/
inductive NbtError where
  | unexpectedEof
  | unknownTag (id : UInt8)
  | rootNotCompound (id : TagId)
  | depthExceeded (max : Nat)
  | negativeLength (len : Int32)
  | lengthExceedsInput (declared remaining : Nat)
  | invalidListElementType (id : TagId)
  | heterogeneousList (expected found : TagId)
  | tooManyNodes (max : Nat)
  | duplicateKey (name : String)
  | arrayTooLong (len : Nat)
  | stringTooLong (len : Nat)
  | invalidUtf8
  deriving DecidableEq, Repr

/-- `id as u8` -/
def TagId.toU8 : TagId → UInt8
  | .endTag => 0
  | .byte => 1
  | .short => 2
  | .int => 3
  | .long => 4
  | .float => 5
  | .double => 6
  | .byteArray => 7
  | .string => 8
  | .list => 9
  | .compound => 10
  | .intArray => 11
  | .longArray => 12

/-- `TagId::try_from` -/
def TagId.tryFrom (value : UInt8) : Except NbtError TagId :=
  match value with
  | 0 => .ok .endTag
  | 1 => .ok .byte
  | 2 => .ok .short
  | 3 => .ok .int
  | 4 => .ok .long
  | 5 => .ok .float
  | 6 => .ok .double
  | 7 => .ok .byteArray
  | 8 => .ok .string
  | 9 => .ok .list
  | 10 => .ok .compound
  | 11 => .ok .intArray
  | 12 => .ok .longArray
  | other => .error (.unknownTag other)

@[simp] theorem TagId.tryFrom_toU8 (id : TagId) : TagId.tryFrom id.toU8 = .ok id := by
  cases id <;> rfl

theorem TagId.toU8_of_tryFrom {value : UInt8} {id : TagId} (h : TagId.tryFrom value = .ok id) :
    id.toU8 = value := by
  unfold TagId.tryFrom at h
  split at h <;> cases h <;> rfl

mutual

/-- A value in a document. The constructors are also the `From` conversions. -/
inductive NbtTag where
  | byte (value : Int8)
  | short (value : Int16)
  | int (value : Int32)
  | long (value : Int64)
  | float (bits : UInt32)
  | double (bits : UInt64)
  | byteArray (value : Wire.Bytes)
  | string (value : String)
  | list (value : NbtList)
  | compound (value : NbtCompound)
  | intArray (values : List Int32)
  | longArray (values : List Int64)

/-- An ordered collection of named tags. -/
structure NbtCompound where
  entries : List (String × NbtTag)

/-- A homogeneous sequence, with the element type it was written with. -/
structure NbtList where
  elementType : TagId
  items : List NbtTag

end

/-- The wire identifier for this tag's type. -/
def NbtTag.id : NbtTag → TagId
  | .byte _ => .byte
  | .short _ => .short
  | .int _ => .int
  | .long _ => .long
  | .float _ => .float
  | .double _ => .double
  | .byteArray _ => .byteArray
  | .string _ => .string
  | .list _ => .list
  | .compound _ => .compound
  | .intArray _ => .intArray
  | .longArray _ => .longArray

theorem NbtTag.id_ne_endTag (tag : NbtTag) : tag.id ≠ .endTag := by
  cases tag <;> simp [NbtTag.id]

/-! ## Compounds -/

namespace NbtCompound

def new : NbtCompound := ⟨[]⟩

/-- Overwrite the value of the first entry called `name`, if there is one. -/
def replaceFirst (name : String) (value : NbtTag) :
    List (String × NbtTag) → Option (List (String × NbtTag))
  | [] => none
  | (key, old) :: rest =>
    if key = name then some ((key, value) :: rest)
    else (replaceFirst name value rest).map ((key, old) :: ·)

/-- Insert a tag, replacing an existing entry of the same name in place. -/
def insert (self : NbtCompound) (name : String) (value : NbtTag) : NbtCompound :=
  match replaceFirst name value self.entries with
  | some entries => ⟨entries⟩
  | none => ⟨self.entries ++ [(name, value)]⟩

/-- Append an entry without checking for an existing key. Crate-private. -/
def push (self : NbtCompound) (name : String) (value : NbtTag) : NbtCompound :=
  ⟨self.entries ++ [(name, value)]⟩

def get (self : NbtCompound) (name : String) : Option NbtTag :=
  (self.entries.find? (fun entry => entry.1 == name)).map Prod.snd

def len (self : NbtCompound) : Nat := self.entries.length

/-- The entries in insertion order. -/
def iter (self : NbtCompound) : List (String × NbtTag) := self.entries

/-- The names in insertion order. -/
def names (self : NbtCompound) : List String := self.entries.map Prod.fst

/-- The `compound!` macro. -/
def ofPairs (pairs : List (String × NbtTag)) : NbtCompound :=
  pairs.foldl (fun compound pair => compound.insert pair.1 pair.2) new

end NbtCompound

/-! ## Lists -/

namespace NbtList

def empty : NbtList := ⟨.endTag, []⟩

/-- Create a list from items that must all share one type. -/
def new (items : List NbtTag) : Except NbtError NbtList :=
  match items.head? with
  | none => .ok empty
  | some first =>
    match items.find? (fun item => item.id != first.id) with
    | some item => .error (.heterogeneousList first.id item.id)
    | none => .ok ⟨first.id, items⟩

/-- Build a list whose homogeneity the caller has already established. Crate-private. -/
def fromParts (elementType : TagId) (items : List NbtTag) : NbtList := ⟨elementType, items⟩

def len (self : NbtList) : Nat := self.items.length

end NbtList

/-! ## Recursion over the tree -/

/-- The tags directly below a tag. -/
def NbtTag.children : NbtTag → List NbtTag
  | .list l => l.items
  | .compound c => c.entries.map Prod.snd
  | _ => []

theorem NbtTag.sizeOf_lt_of_mem_children {tag child : NbtTag} (h : child ∈ tag.children) :
    sizeOf child < sizeOf tag := by
  cases tag with
  | list l =>
      obtain ⟨elementType, items⟩ := l
      have hlt := List.sizeOf_lt_of_mem (show child ∈ items from h)
      simp
      omega
  | compound c =>
      obtain ⟨entries⟩ := c
      obtain ⟨⟨name, child'⟩, hmem, rfl⟩ := List.mem_map.1 (show child ∈ entries.map Prod.snd from h)
      have hlt := List.sizeOf_lt_of_mem hmem
      simp at hlt ⊢
      omega
  | _ => simp [NbtTag.children] at h

/-- Induction on the tree: a property passes from the tags below a tag to the tag. -/
theorem NbtTag.induction {P : NbtTag → Prop}
    (step : ∀ tag, (∀ child ∈ NbtTag.children tag, P child) → P tag) (tag : NbtTag) : P tag :=
  step tag fun child _ => NbtTag.induction step child
termination_by sizeOf tag
decreasing_by exact NbtTag.sizeOf_lt_of_mem_children ‹_›

mutual

/-- The number of tags a tag contributes to a document: itself and everything below it. -/
def NbtTag.nodes : NbtTag → Nat
  | .list l => 1 + l.nodes
  | .compound c => 1 + c.nodes
  | _ => 1

/-- Entry values and everything below them; the compound itself is not counted. -/
def NbtCompound.nodes : NbtCompound → Nat
  | ⟨entries⟩ => entriesNodes entries

def entriesNodes : List (String × NbtTag) → Nat
  | [] => 0
  | (_, tag) :: rest => tag.nodes + entriesNodes rest

/-- Elements and everything below them; the list itself is not counted. -/
def NbtList.nodes : NbtList → Nat
  | ⟨_, items⟩ => itemsNodes items

def itemsNodes : List NbtTag → Nat
  | [] => 0
  | tag :: rest => tag.nodes + itemsNodes rest

end

theorem entriesNodes_append (xs ys : List (String × NbtTag)) :
    entriesNodes (xs ++ ys) = entriesNodes xs + entriesNodes ys := by
  induction xs with
  | nil => simp [entriesNodes]
  | cons x xs ih =>
      obtain ⟨name, tag⟩ := x
      simp only [List.cons_append, entriesNodes, ih]
      omega

theorem itemsNodes_append (xs ys : List NbtTag) :
    itemsNodes (xs ++ ys) = itemsNodes xs + itemsNodes ys := by
  induction xs with
  | nil => simp [itemsNodes]
  | cons x xs ih =>
      simp only [List.cons_append, itemsNodes, ih]
      omega

end Pyrite.Nbt
