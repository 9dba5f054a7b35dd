import Pyrite.Wire.Bytes

set_option autoImplicit false

/-! # The host machine

What the readers take from the machine and the standard library: pointer-sized arithmetic on 32- and
64-bit targets, shifts, slice indexing, UTF-8, and a compression library taken as a parameter.
Operations that are undefined outside their domain (an overflowing sum, a shift by the operand width,
an index past the end) panic. -/

namespace Wire

variable {ε σ α : Type}

/-! ## Pointer-sized integers -/

theorem int32_ofNat_toInt {n : Nat} (h : n < 2147483648) : (Int32.ofNat n).toInt = n :=
  Int32.toInt_ofNat_of_lt h

theorem int32_ofNat_toNat {v : Int32} (h : 0 ≤ v.toInt) : Int32.ofNat v.toInt.toNat = v := by
  have hlt := v.toInt_lt
  apply Int32.toInt_inj.mp
  rw [int32_ofNat_toInt (by omega), Int.toNat_of_nonneg h]

/-- The width of `usize`. -/
inductive Target where
  | bits32
  | bits64
  deriving DecidableEq, Repr

namespace Target

def bits : Target → Nat
  | bits32 => 32
  | bits64 => 64

/-- `usize::MAX`. -/
def usizeMax (t : Target) : Nat := 2 ^ t.bits - 1

theorem le_usizeMax (t : Target) : 2 ^ 32 - 1 ≤ t.usizeMax := by
  cases t <;> simp [usizeMax, bits]

/-- A sign-extending `as usize` cast of an `i32`. -/
def ofInt32 (t : Target) (v : Int32) : Nat := (v.toInt % 2 ^ t.bits).toNat

theorem ofInt32_of_nonneg (t : Target) (v : Int32) (h : 0 ≤ v.toInt) :
    t.ofInt32 v = v.toInt.toNat := by
  have hlt : v.toInt < 2 ^ 31 := v.toInt_lt
  rw [ofInt32, Int.emod_eq_of_lt h]
  cases t <;> simp only [bits] <;> omega

/-- `usize::try_from` of an `i32`: a negative number has no `usize`. -/
def tryFromInt32 (v : Int32) : Option Nat :=
  if v.toInt < 0 then none else some v.toInt.toNat

theorem tryFromInt32_ofNat {n : Nat} (h : n < 2147483648) : tryFromInt32 (Int32.ofNat n) = some n := by
  rw [tryFromInt32, int32_ofNat_toInt h, if_neg (by omega), Int.toNat_natCast]

theorem tryFromInt32_eq_some {v : Int32} {n : Nat} (h : tryFromInt32 v = some n) :
    v = Int32.ofNat n ∧ n < 2147483648 := by
  unfold tryFromInt32 at h
  split_ifs at h with hneg
  obtain rfl := Option.some.inj h
  have hlt := v.toInt_lt
  exact ⟨(int32_ofNat_toNat (Int.not_lt.mp hneg)).symm, by omega⟩

/-- `checked_mul`. -/
def checkedMul (t : Target) (a b : Nat) : Option Nat :=
  if a * b ≤ t.usizeMax then some (a * b) else none

/-- `saturating_mul`. -/
def saturatingMul (t : Target) (a b : Nat) : Nat := min (a * b) t.usizeMax

end Target

namespace Exec

/-- The `usize` result `n` of an addition or multiplication. Panics on overflow. -/
def usize (t : Target) (n : Nat) : Exec ε σ Nat :=
  if n ≤ t.usizeMax then pure n else panic

theorem usize_of_lt (t : Target) {n : Nat} (h : n < 2 ^ 32) : (usize t n : Exec ε σ Nat) = pure n :=
  if_pos (by have := t.le_usizeMax; omega)

/-- `x << n`. Panics when the shift amount reaches the operand width. -/
def shl {w : Nat} (x : BitVec w) (n : Nat) : Exec ε σ (BitVec w) :=
  if n < w then pure (x <<< n) else panic

theorem shl_of_lt {w : Nat} (x : BitVec w) {n : Nat} (h : n < w) :
    (shl x n : Exec ε σ (BitVec w)) = pure (x <<< n) :=
  if_pos h

/-- `xs[i]`. Panics past the end. -/
def index (xs : List α) (i : Nat) : Exec ε σ α :=
  match xs[i]? with
  | some a => pure a
  | none => panic

end Exec

/-! ## Text -/

/-- The bytes of a string. -/
def utf8 (s : String) : Bytes := s.toByteArray.data.toList

/-- The string a byte sequence encodes, if it is valid UTF-8. -/
def fromUtf8 (bs : Bytes) : Option String := String.fromUTF8? ⟨bs.toArray⟩

theorem fromUtf8_eq_some {bs : Bytes} {s : String} : fromUtf8 bs = some s ↔ utf8 s = bs := by
  unfold fromUtf8 utf8 String.fromUTF8?
  constructor
  · intro h
    split at h
    · obtain rfl := Option.some.inj h
      rfl
    · cases h
  · intro heq
    subst heq
    have hbytes : (⟨s.toByteArray.data.toList.toArray⟩ : ByteArray) = s.toByteArray := by simp
    have hvalid : ByteArray.IsValidUTF8 ⟨s.toByteArray.data.toList.toArray⟩ := by
      rw [hbytes]
      exact s.isValidUTF8
    rw [dif_pos hvalid, Option.some.injEq]
    exact String.toByteArray_inj.mp hbytes

theorem fromUtf8_utf8 (s : String) : fromUtf8 (utf8 s) = some s := fromUtf8_eq_some.mpr rfl

theorem length_utf8_eq_sum (cs : List Char) :
    (utf8 (String.ofList cs)).length = (cs.map Char.utf8Size).sum := by
  induction cs with
  | nil => rfl
  | cons c cs ih =>
      simp only [utf8, String.toByteArray_ofList, Array.length_toList, ByteArray.size_data] at ih ⊢
      rw [List.utf8Encode_cons, ByteArray.size_append, ih, List.map_cons, List.sum_cons]
      simp [List.utf8Encode]

/-- Characters of one byte each. -/
theorem length_utf8_ofList {cs : List Char} (hcs : ∀ c ∈ cs, c.utf8Size = 1) :
    (utf8 (String.ofList cs)).length = cs.length := by
  have hsizes : cs.map Char.utf8Size = List.replicate cs.length 1 :=
    List.eq_replicate_iff.mpr ⟨List.length_map _, List.forall_mem_map.mpr hcs⟩
  rw [length_utf8_eq_sum, hsizes, List.sum_replicate, smul_eq_mul, Nat.mul_one]

theorem length_utf8_replicate {c : Char} (hc : c.utf8Size = 1) (n : Nat) :
    (utf8 (String.ofList (List.replicate n c))).length = n := by
  rw [length_utf8_ofList, List.length_replicate]
  intro c' hc'
  rw [List.eq_of_mem_replicate hc']
  exact hc

/-- The UTF-16 code units of a character: two, a surrogate pair, outside the basic plane. -/
def utf16Size (c : Char) : Nat := if c.val ≤ 0xffff then 1 else 2

/-- The UTF-16 code units of a string. -/
def utf16Len (s : String) : Nat := (s.toList.map utf16Size).sum

theorem utf8Size_le (c : Char) : c.utf8Size ≤ 3 * utf16Size c := by
  have hfour := c.utf8Size_le_four
  unfold utf16Size
  split_ifs with hplane
  · have hne : c.utf8Size ≠ 4 := fun heq => absurd hplane (UInt32.not_le.mpr (Char.utf8Size_eq_four_iff.mp heq))
    omega
  · omega

/-- Three bytes for each code unit are enough, whatever the characters. -/
theorem length_utf8_le (s : String) : (utf8 s).length ≤ 3 * utf16Len s := by
  have hsum := length_utf8_eq_sum s.toList
  rw [String.ofList_toList] at hsum
  rw [hsum, utf16Len]
  induction s.toList with
  | nil => simp
  | cons c cs ih =>
      have hc := utf8Size_le c
      simp only [List.map_cons, List.sum_cons]
      omega

/-! ## Compression -/

/-- What an inflater gives: the bytes it produces, and how it stops after the last of them. -/
structure Inflated where
  output : Bytes
  finish : Except String Unit

/-- `read_to_end` behind a `take(limit)`: the reader stops at the limit without asking for more, so a
    failure after it goes unseen. -/
def Inflated.readToEnd (self : Inflated) (limit : Nat) : Except String Bytes :=
  if limit ≤ self.output.length then .ok (self.output.take limit)
  else match self.finish with
    | .ok () => .ok self.output
    | .error reason => .error reason

/-- A compression library. -/
structure Zlib where
  deflate : Bytes → Except String Bytes
  inflate : Bytes → Inflated

/-- Inflating undoes deflating. -/
def Zlib.Inverts (z : Zlib) : Prop :=
  ∀ input output, z.deflate input = .ok output → z.inflate output = ⟨input, .ok ()⟩

theorem Inflated.readToEnd_of_length_lt {output : Bytes} {limit : Nat} (h : output.length < limit) :
    (⟨output, .ok ()⟩ : Inflated).readToEnd limit = .ok output := by
  rw [Inflated.readToEnd, if_neg (Nat.not_le.mpr h)]

/-- Less than the limit is read only from a reader that ended there. -/
theorem Inflated.of_readToEnd {i : Inflated} {limit : Nat} {out : Bytes} (h : i.readToEnd limit = .ok out)
    (hlt : out.length < limit) : i = ⟨out, .ok ()⟩ := by
  obtain ⟨output, finish⟩ := i
  unfold Inflated.readToEnd at h
  split_ifs at h with hlimit
  · obtain rfl := Except.ok.inj h
    rw [List.length_take_of_le hlimit] at hlt
    exact absurd hlt (lt_irrefl _)
  · cases finish with
    | ok u =>
        obtain rfl := Except.ok.inj h
        rfl
    | error reason => cases h

/-- The checksum at the end of a zlib stream. -/
def adler32 (input : Bytes) : UInt32 :=
  let sums := input.foldl (fun (sums : Nat × Nat) byte =>
    let a := (sums.1 + byte.toNat) % 65521
    (a, (sums.2 + a) % 65521)) (1, 0)
  UInt32.ofNat (sums.2 * 65536 + sums.1)

/-- zlib at level zero, for inputs of a single block: a header, the block as it is, the checksum. -/
def Zlib.stored : Zlib where
  deflate input :=
    let len := UInt16.ofNat input.length
    .ok ([120, 1, 1] ++ (wordBytes len).reverse ++ (wordBytes (~~~len)).reverse ++ input
      ++ wordBytes (adler32 input))
  inflate input := ⟨(input.drop 7).take (input.length - 11), .ok ()⟩

theorem Zlib.stored_inverts : Zlib.stored.Inverts := by
  intro input output h
  obtain rfl := Except.ok.inj h
  generalize hheader : ([120, 1, 1] ++ (wordBytes (UInt16.ofNat input.length)).reverse
    ++ (wordBytes (~~~(UInt16.ofNat input.length))).reverse : Bytes) = header
  have hlen : header.length = 7 := by
    rw [← hheader]
    simp [Word.size]
  have htake : (header ++ input ++ wordBytes (adler32 input)).length - 11 = input.length := by
    simp only [List.length_append, hlen, length_wordBytes, Word.size]
    omega
  simp only [Zlib.stored, htake]
  rw [List.append_assoc, List.drop_left' hlen, List.take_left]

end Wire
