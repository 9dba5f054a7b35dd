import Pyrite.Protocol.Varint

set_option autoImplicit false

/-! # Primitive field codecs

`crates/protocol/src/buf.rs`: the fields every packet is made of. Each reader is total: the length it
checks first is the length the partial primitive after it needs. `write_nbt` and `read_nbt`, which no
packet uses yet, are in `Pyrite.Protocol.NbtField`. -/

namespace Pyrite.Protocol

open Wire

variable {ε α : Type}

/-- `MAX_BYTES_PER_CHAR` -/
def maxBytesPerChar : Nat := 3

/-! ## Strings -/

/-- Write a length-prefixed UTF-8 string. The prefix counts bytes. -/
def writeString (value : String) : Put ε Unit := do
  writeVarint (Int32.ofNat (utf8 value).length)
  Put.slice (utf8 value)

theorem writeString_eq (value : String) :
    (writeString value : Put ε Unit)
      = Put.slice (varintBytes (Int32.ofNat (utf8 value).length) ++ utf8 value) := by
  rw [writeString, writeVarint_eq, Put.slice_bind_slice]

/-- Read a length-prefixed UTF-8 string, rejecting anything longer than `maxChars` characters. -/
def readString (t : Target) (maxChars : Nat) : Exec ProtocolError Bytes String := do
  let declared ← readVarint t
  match Target.tryFromInt32 declared with
  | none => Exec.throw (.negativeLength declared)
  | some len =>
    let max := t.saturatingMul maxChars maxBytesPerChar
    if len > max then Exec.throw (.stringTooLong len max)
    else do
      let remaining ← Exec.remaining
      if remaining < len then Exec.throw .unexpectedEof
      else do
        let bytes ← Exec.take len
        match fromUtf8 bytes with
        | some value => pure value
        | none => Exec.throw .invalidUtf8

/-! ## Fixed-width integers -/

/-- The reader of one big-endian integer of `size` bytes. -/
def readWord [Word α] (size : Nat) : Exec ProtocolError Bytes α := do
  let remaining ← Exec.remaining
  if remaining < size then Exec.throw .unexpectedEof
  else Exec.get

def writeU16 (value : UInt16) : Put ε Unit := Put.word value

def readU16 : Exec ProtocolError Bytes UInt16 := readWord 2

def writeI64 (value : Int64) : Put ε Unit := Put.word value

def readI64 : Exec ProtocolError Bytes Int64 := readWord 8

/-- Write a UUID as an unsigned 128-bit integer. -/
def writeUuid (value : BitVec 128) : Put ε Unit := Put.word value

def readUuid : Exec ProtocolError Bytes (BitVec 128) := readWord 16

/-! ## Arrays and options -/

/-- The element loop of `writePrefixedArray`. -/
def writeItems (writeItem : α → Put ε Unit) : List α → Put ε Unit
  | [] => pure ()
  | item :: items => do
    writeItem item
    writeItems writeItem items

/-- Write a VarInt element count followed by each element. -/
def writePrefixedArray (items : List α) (writeItem : α → Put ε Unit) : Put ε Unit := do
  writeVarint (Int32.ofNat items.length)
  writeItems writeItem items

/-- Read a VarInt element count followed by that many elements. -/
def readPrefixedArray (t : Target) (maxLen : Nat) (readItem : Exec ProtocolError Bytes α) :
    Exec ProtocolError Bytes (List α) := do
  let declared ← readVarint t
  match Target.tryFromInt32 declared with
  | none => Exec.throw (.negativeLength declared)
  | some len =>
    if len > maxLen then Exec.throw (.arrayTooLong len maxLen)
    -- `Vec::with_capacity` reserves memory only
    else Exec.times readItem len

/-- Write a boolean presence tag followed by the value when present. -/
def writePrefixedOptional (value : Option α) (writeValue : α → Put ε Unit) : Put ε Unit :=
  match value with
  | some value => do
    Put.word (1 : UInt8)
    writeValue value
  | none => Put.word (0 : UInt8)

/-- Read a boolean presence tag and, when set, the value after it. -/
def readPrefixedOptional (readValue : Exec ProtocolError Bytes α) :
    Exec ProtocolError Bytes (Option α) := do
  let remaining ← Exec.remaining
  if remaining = 0 then Exec.throw .unexpectedEof
  else do
    let tag : UInt8 ← Exec.get
    if tag = 0 then pure none
    else if tag = 1 then some <$> readValue
    else Exec.throw (.invalidBoolean tag)

/-! ## Strings and their caps -/

/-- The cap in bytes, which saturates only beyond every length that a prefix can declare. -/
theorem exceeds_cap_iff (t : Target) {len : Nat} (hlen : len < 2147483648) (maxChars : Nat) :
    len > t.saturatingMul maxChars maxBytesPerChar ↔ 3 * maxChars < len := by
  have husize := t.le_usizeMax
  simp only [Target.saturatingMul, maxBytesPerChar]
  omega

/-- Reading a string that is there: its length is checked against the cap before anything else. -/
theorem readString_of_front {t : Target} {p : Bytes} {value : String}
    (hp : readVarint t p = .ok (Int32.ofNat (utf8 value).length) [])
    (hlen : (utf8 value).length < 2147483648) (maxChars : Nat) (rest : Bytes) :
    readString t maxChars (p ++ (utf8 value ++ rest))
      = if (utf8 value).length > t.saturatingMul maxChars maxBytesPerChar then
          .error (.stringTooLong (utf8 value).length (t.saturatingMul maxChars maxBytesPerChar))
            (utf8 value ++ rest)
        else .ok value rest := by
  have hremaining : ¬ (utf8 value ++ rest).length < (utf8 value).length := by
    rw [List.length_append]
    omega
  simp only [readString, Exec.bind_apply, readVarint_of_front hp, Outcome.bind_ok,
    Target.tryFromInt32_ofNat hlen, Exec.ite_apply, Exec.throw_apply, Exec.remaining_apply,
    if_neg hremaining, Exec.take_append, fromUtf8_utf8, Exec.pure_apply]

/-! ## Totality -/

/-- A read behind a check of the remaining length. -/
theorem guarded_total {n : Nat} {m : Exec ProtocolError Bytes α} {e : ProtocolError}
    (hm : ∀ src, n ≤ src.length → (m src).Satisfies (fun _ _ => True) (fun _ _ => True)) :
    (do
      let remaining ← Exec.remaining
      if remaining < n then Exec.throw e else m : Exec ProtocolError Bytes α).Total := by
  intro src
  simp only [Exec.bind_apply, Exec.remaining_apply, Outcome.bind_ok, Exec.ite_apply]
  by_cases hlen : src.length < n
  · rw [if_pos hlen]
    trivial
  · rw [if_neg hlen]
    exact hm src (Nat.not_lt.mp hlen)

theorem readWord_total [Word α] : (readWord (Word.size α) : Exec ProtocolError Bytes α).Total :=
  guarded_total fun _ hlen => (Exec.get_spec (E := fun _ _ => True) hlen).ends

theorem readU16_total : readU16.Total := readWord_total

theorem readI64_total : readI64.Total := readWord_total

theorem readUuid_total : readUuid.Total := readWord_total

theorem readString_total (t : Target) (maxChars : Nat) : (readString t maxChars).Total := by
  refine (readVarint_total t).bind fun declared => ?_
  cases Target.tryFromInt32 declared with
  | none => exact Exec.total_throw _
  | some len =>
      refine Exec.Total.ite (Exec.total_throw _) (guarded_total fun src hlen => ?_)
      refine (Exec.take_spec hlen).bind fun bytes rest _ => ?_
      cases fromUtf8 bytes <;> trivial

theorem readPrefixedArray_total (t : Target) (maxLen : Nat) {readItem : Exec ProtocolError Bytes α}
    (hitem : readItem.Total) : (readPrefixedArray t maxLen readItem).Total := by
  refine (readVarint_total t).bind fun declared => ?_
  cases Target.tryFromInt32 declared with
  | none => exact Exec.total_throw _
  | some len => exact Exec.Total.ite (Exec.total_throw _) (hitem.times len)

theorem readPrefixedOptional_total {readValue : Exec ProtocolError Bytes α} (hvalue : readValue.Total) :
    (readPrefixedOptional readValue).Total := by
  intro src
  cases src with
  | nil => trivial
  | cons tag src =>
      simp only [readPrefixedOptional, Exec.bind_apply, Exec.remaining_apply, Outcome.bind_ok,
        Exec.ite_apply, List.length_cons, Nat.succ_ne_zero, if_false, Exec.get_u8]
      by_cases h₀ : tag = 0
      · rw [if_pos h₀]
        trivial
      by_cases h₁ : tag = 1
      · rw [if_neg h₀, if_pos h₁]
        exact (hvalue src).bind fun _ _ _ => trivial
      · rw [if_neg h₀, if_neg h₁]
        trivial

end Pyrite.Protocol
