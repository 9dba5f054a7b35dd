import Pyrite.Nbt.Tag
import Pyrite.Wire.Leb128

set_option autoImplicit false

/-! # VarInts and VarLongs

`crates/protocol/src/varint.rs`, and the error type of `error.rs`. The 32- and 64-bit codecs of the
source are the same loops at two widths, so the loops are generic in the width here. The readers keep
the source's partial operations: the product `7 * index`, the shift, `get_u8`.

`readGroups_eq` and `readSliceGroups_eq` say completely what the two read loops do, in terms of `scan`;
nothing above them unfolds a loop again. -/

namespace Pyrite.Protocol

open Wire

variable {ε σ : Type} {w : Nat}

/-- Every way protocol encoding or decoding can fail. `InvalidUtf8` is kept without the position of the
    offending byte, which nothing reads; library errors are kept as the texts they report. -/
inductive ProtocolError where
  | varIntTooLong (max : Nat)
  | unexpectedEof
  | negativeLength (len : Int32)
  | frameTooLarge (len max : Nat)
  | stringTooLong (len max : Nat)
  | arrayTooLong (len max : Nat)
  | invalidBoolean (byte : UInt8)
  | compressedSizeMismatch (declared actual : Nat)
  | decompression (reason : String)
  | nbt (error : Nbt.NbtError)
  | compressedBelowThreshold (dataLength : Nat) (threshold : Int32)
  | invalidUtf8
  | invalidNextState (value : Int32)
  | json (reason : String)
  | io (reason : String)
  | trailingBytes (remaining : Nat)
  deriving DecidableEq, Repr

/-- `MAX_VARINT_LEN` -/
def maxVarintLen : Nat := 5

/-- `MAX_VARLONG_LEN` -/
def maxVarlongLen : Nat := 10

/-- `CONTINUATION_BIT` -/
def continuationBit : UInt8 := 0x80

/-- `PAYLOAD_MASK` -/
def payloadMask : UInt8 := 0x7f

/-! ## Writing -/

/-- The loop of `writeVarint` and `writeVarlong`. -/
def writeGroups (remaining : BitVec w) : Put ε Unit :=
  if _h : remaining &&& ~~~(BitVec.ofNat w payloadMask.toNat) = 0 then
    Put.word (UInt8.ofNat remaining.toNat)
  else do
    Put.word ((UInt8.ofNat remaining.toNat &&& payloadMask) ||| continuationBit)
    writeGroups (remaining >>> 7)
termination_by remaining.toNat
decreasing_by
  have hpos : remaining.toNat ≠ 0 := by
    intro hzero
    have hremaining : remaining = 0#w := BitVec.eq_of_toNat_eq (by simpa using hzero)
    exact _h (by simp [hremaining])
  rw [BitVec.toNat_ushiftRight, Nat.shiftRight_eq_div_pow]
  omega

/-- Encode `value` as a VarInt. -/
def writeVarint (value : Int32) : Put ε Unit := writeGroups value.toBitVec

/-- Encode `value` as a VarLong. -/
def writeVarlong (value : Int64) : Put ε Unit := writeGroups value.toBitVec

/-- How many bytes `value` occupies when VarInt-encoded. -/
def varintLen (value : Int32) : Nat :=
  let value := value.toUInt32
  if value ≤ 0x0000007f then 1
  else if value ≤ 0x00003fff then 2
  else if value ≤ 0x001fffff then 3
  else if value ≤ 0x0fffffff then 4
  else 5

/-! ## Reading -/

/-- `result |= u32::from(byte & PAYLOAD_MASK) << (7 * index)` -/
def orGroup (t : Target) (result : BitVec w) (index : Nat) (byte : UInt8) : Exec ε σ (BitVec w) := do
  let shift ← Exec.usize t (7 * index)
  let group ← Exec.shl (BitVec.ofNat w (byte &&& payloadMask).toNat) shift
  pure (result ||| group)

/-- The loop of `readVarint` and `readVarlong`, from round `index` with `rounds` of `max` left. -/
def readGroups (t : Target) (max : Nat) :
    Nat → Nat → BitVec w → Exec ProtocolError Bytes (BitVec w)
  | 0, _, _ => Exec.throw (.varIntTooLong max)
  | rounds + 1, index, result => do
    let remaining ← Exec.remaining
    if remaining = 0 then Exec.throw .unexpectedEof
    else do
      let byte : UInt8 ← Exec.get
      let result ← orGroup t result index byte
      if byte &&& continuationBit = 0 then pure result
      else readGroups t max rounds (index + 1) result

/-- Decode a VarInt, advancing past the bytes consumed. -/
def readVarint (t : Target) : Exec ProtocolError Bytes Int32 := do
  let result ← readGroups t maxVarintLen maxVarintLen 0 (0 : BitVec 32)
  pure (Int32.ofBitVec result)

/-- Decode a VarLong, advancing past the bytes consumed. -/
def readVarlong (t : Target) : Exec ProtocolError Bytes Int64 := do
  let result ← readGroups t maxVarlongLen maxVarlongLen 0 (0 : BitVec 64)
  pure (Int64.ofBitVec result)

/-- The loop of `readVarintSlice`. -/
def readSliceGroups (t : Target) (src : Bytes) :
    Nat → Nat → BitVec 32 → Exec ProtocolError σ (Option (Int32 × Nat))
  | 0, _, _ => Exec.throw (.varIntTooLong maxVarintLen)
  | rounds + 1, index, result =>
    match src[index]? with
    | none => pure none
    | some byte => do
      let result ← orGroup t result index byte
      if byte &&& continuationBit = 0 then do
        let len ← Exec.usize t (index + 1)
        pure (some (Int32.ofBitVec result, len))
      else readSliceGroups t src rounds (index + 1) result

/-- Decode a VarInt from the front of `src` without consuming anything, with the number of bytes it
    occupies. `none` when `src` holds only part of one. -/
def readVarintSlice (t : Target) (src : Bytes) : Exec ProtocolError σ (Option (Int32 × Nat)) :=
  readSliceGroups t src maxVarintLen 0 0

/-! ## What the bit operations compute -/

theorem toNat_and_payloadMask (byte : UInt8) : (byte &&& payloadMask).toNat = byte.toNat % 128 := by
  have hmask : payloadMask.toNat = 2 ^ 7 - 1 := rfl
  rw [UInt8.toNat_and, hmask, Nat.and_two_pow_sub_one_eq_mod]

theorem and_continuationBit (byte : UInt8) : byte &&& continuationBit = 0 ↔ byte.toNat < 128 := by
  have hall : ∀ i : Fin 256, i.val &&& 128 = 0 ↔ i.val < 128 := by decide +kernel
  have hbyte := hall ⟨byte.toNat, byte.toNat_lt⟩
  rw [← UInt8.toNat_inj, UInt8.toNat_and]
  exact hbyte

theorem or_continuationBit (n : Nat) :
    (UInt8.ofNat n &&& payloadMask) ||| continuationBit = UInt8.ofNat (n % 128 + 128) := by
  have hlow : (UInt8.ofNat n &&& payloadMask).toNat = n % 128 := by
    rw [toNat_and_payloadMask, UInt8.toNat_ofNat']
    omega
  have hlt : n % 128 < 2 ^ 7 := Nat.mod_lt _ (by decide)
  have hbit : continuationBit.toNat = 2 ^ 7 * 1 := rfl
  apply UInt8.toNat_inj.mp
  rw [UInt8.toNat_or, hlow, hbit, Nat.or_comm, ← Nat.two_pow_add_eq_or_of_lt hlt, UInt8.toNat_ofNat']
  omega

/-- Nothing outside the low seven bits is left. -/
theorem and_not_payloadMask (x : BitVec w) :
    x &&& ~~~(BitVec.ofNat w payloadMask.toNat) = 0 ↔ x.toNat < 128 := by
  have hmask : ∀ i (hi : i < w), (BitVec.ofNat w payloadMask.toNat)[i] = decide (i < 7) := by
    intro i hi
    rw [← BitVec.getLsbD_eq_getElem, BitVec.getLsbD_ofNat]
    have hbit : payloadMask.toNat.testBit i = decide (i < 7) := Nat.testBit_two_pow_sub_one 7 i
    simp [hi, hbit]
  constructor
  · intro h
    apply Nat.lt_pow_two_of_testBit (n := 7)
    intro i hi
    by_cases hw : i < w
    · have hbit := congrArg (fun y => y.getLsbD i) h
      rw [← BitVec.getElem_eq_testBit_toNat x i hw]
      simpa [hw, hmask i hw, Nat.not_lt.mpr hi] using hbit
    · have hle : 2 ^ w ≤ 2 ^ i := Nat.pow_le_pow_right (by decide) (Nat.not_lt.mp hw)
      exact Nat.testBit_lt_two_pow (lt_of_lt_of_le x.isLt hle)
  · intro h
    ext i hi
    by_cases h7 : i < 7
    · simp [hmask i hi, h7]
    · have hle : 2 ^ 7 ≤ 2 ^ i := Nat.pow_le_pow_right (by decide) (Nat.not_lt.mp h7)
      have hx : x.toNat.testBit i = false := Nat.testBit_lt_two_pow (lt_of_lt_of_le h hle)
      simp [BitVec.getElem_eq_testBit_toNat, hx]

/-! ## The write loop -/

theorem writeGroups_eq (remaining : BitVec w) :
    (writeGroups remaining : Put ε Unit) = Put.slice (lebBytes remaining.toNat) := by
  fun_induction writeGroups remaining with
  | case1 remaining h =>
      have hlt := (and_not_payloadMask remaining).mp h
      rw [lebBytes_of_lt hlt, Put.word, wordBytes_u8]
  | case2 remaining h ih =>
      have hge := Nat.not_lt.mp fun hlt => h ((and_not_payloadMask remaining).mpr hlt)
      have hshift : (remaining >>> 7).toNat = remaining.toNat / 128 := by
        rw [BitVec.toNat_ushiftRight, Nat.shiftRight_eq_div_pow]
      rw [ih, lebBytes_of_ge hge, or_continuationBit, Put.word, wordBytes_u8, Put.slice_bind_slice,
        hshift]
      rfl

/-- The bytes of a VarInt. -/
def varintBytes (value : Int32) : Bytes := lebBytes value.toBitVec.toNat

theorem writeVarint_eq (value : Int32) : (writeVarint value : Put ε Unit) = Put.slice (varintBytes value) :=
  writeGroups_eq value.toBitVec

theorem length_varintBytes (value : Int32) : (varintBytes value).length = varintLen value := by
  have hlt : value.toBitVec.toNat < 4294967296 := value.toBitVec.isLt
  unfold varintBytes varintLen
  simp only [UInt32.le_iff_toNat_le]
  have hvalue : value.toUInt32.toNat = value.toBitVec.toNat := rfl
  rw [hvalue]
  generalize value.toBitVec.toNat = n at hlt
  split_ifs with h₁ h₂ h₃ h₄
  · exact Nat.le_antisymm (length_lebBytes_le (k := 0) (Nat.lt_succ_of_le h₁)) (length_lebBytes_pos n)
  · exact length_lebBytes (k := 1) (Nat.lt_of_not_le h₁) (Nat.lt_succ_of_le h₂)
  · exact length_lebBytes (k := 2) (Nat.lt_of_not_le h₂) (Nat.lt_succ_of_le h₃)
  · exact length_lebBytes (k := 3) (Nat.lt_of_not_le h₃) (Nat.lt_succ_of_le h₄)
  · exact length_lebBytes (k := 4) (Nat.lt_of_not_le h₄) (lt_trans hlt (by norm_num))

/-! ## The read loops -/

/-- What a consuming read loop does to a buffer `src`, when it has read `done` before. -/
def readScan (max : Nat) (done src : Bytes) : Scan → Outcome ProtocolError Bytes (BitVec w)
  | .complete n => .ok (BitVec.ofNat w (lebValue (done ++ src.take n))) (src.drop n)
  | .short => .error .unexpectedEof []
  | .tooLong => .error (.varIntTooLong max) (src.drop (max - done.length))

/-- What the peeking read loop answers for the same buffer. -/
def peekScan (done src : Bytes) (s : σ) : Scan → Outcome ProtocolError σ (Option (Int32 × Nat))
  | .complete n =>
    .ok (some (Int32.ofBitVec (BitVec.ofNat 32 (lebValue (done ++ src.take n))), done.length + n)) s
  | .short => .ok none s
  | .tooLong => .error (.varIntTooLong maxVarintLen) s

theorem orGroup_eq (t : Target) {index : Nat} {done : Bytes} (hdone : done.length = index)
    (hindex : 7 * index < w) (hw : w ≤ 64) (byte : UInt8) :
    (orGroup t (BitVec.ofNat w (lebValue done)) index byte : Exec ε σ (BitVec w))
      = pure (BitVec.ofNat w (lebValue (done ++ [byte]))) := by
  subst hdone
  unfold orGroup
  rw [Exec.usize_of_lt t (by omega : 7 * done.length < 2 ^ 32), toNat_and_payloadMask]
  funext s
  simp only [Exec.bind_apply, Exec.pure_apply, Outcome.bind_ok, Exec.shl_of_lt _ hindex, or_group]

theorem readGroups_eq (t : Target) (max : Nat) (hmax : 7 * max < w + 7) (hw : w ≤ 64) :
    ∀ (rounds : Nat) (done src : Bytes), done.length + rounds = max →
      readGroups t max rounds done.length (BitVec.ofNat w (lebValue done)) src
        = readScan max done src (scan rounds src) := by
  intro rounds
  induction rounds with
  | zero =>
      intro done src hrounds
      simp [readGroups, scan, readScan, ← hrounds]
  | succ rounds ih =>
      intro done src hrounds
      cases src with
      | nil => simp [readGroups, scan, readScan]
      | cons byte src =>
          have hgroup := orGroup_eq (ε := ProtocolError) (σ := Bytes) t (rfl : done.length = done.length)
            (by omega : 7 * done.length < w) hw byte
          have hloop := ih (done ++ [byte]) src (by simp; omega)
          rw [List.length_append, List.length_singleton] at hloop
          simp only [readGroups, Exec.bind_apply, Exec.remaining_apply, Outcome.bind_ok, Exec.ite_apply,
            List.length_cons, Nat.succ_ne_zero, if_false, Exec.get_u8, hgroup, Exec.pure_apply,
            and_continuationBit, hloop, scan]
          by_cases hbyte : byte.toNat < 128
          · simp [hbyte, readScan]
          · rw [if_neg hbyte, if_neg hbyte]
            cases hscan : scan rounds src with
            | complete n => simp [readScan, Scan.succ]
            | short => rfl
            | tooLong =>
                have hdrop : max - done.length = (max - (done.length + 1)) + 1 := by omega
                simp [readScan, Scan.succ, hdrop]

theorem readSliceGroups_eq (t : Target) (s : σ) :
    ∀ (rounds : Nat) (done src : Bytes), done.length + rounds = maxVarintLen →
      readSliceGroups t (done ++ src) rounds done.length (BitVec.ofNat 32 (lebValue done)) s
        = peekScan done src s (scan rounds src) := by
  intro rounds
  induction rounds with
  | zero =>
      intro done src _
      simp [readSliceGroups, scan, peekScan]
  | succ rounds ih =>
      intro done src hrounds
      have hdone : done.length < 5 := by
        simp only [maxVarintLen] at hrounds
        omega
      cases src with
      | nil => simp [readSliceGroups, scan, peekScan]
      | cons byte src =>
          have hgroup := orGroup_eq (ε := ProtocolError) (σ := σ) t (rfl : done.length = done.length)
            (by omega : 7 * done.length < 32) (by decide) byte
          have hloop := ih (done ++ [byte]) src (by simp; omega)
          have hlen : (Exec.usize t (done.length + 1) : Exec ProtocolError σ Nat) = pure (done.length + 1) :=
            Exec.usize_of_lt t (by omega)
          have hget : (done ++ byte :: src)[done.length]? = some byte := by simp
          rw [List.append_assoc, List.singleton_append, List.length_append, List.length_singleton] at hloop
          simp only [readSliceGroups, hget, Exec.bind_apply, hgroup, Exec.pure_apply, Outcome.bind_ok,
            Exec.ite_apply, and_continuationBit, hloop, hlen, scan]
          by_cases hbyte : byte.toNat < 128
          · simp [hbyte, peekScan]
          · rw [if_neg hbyte, if_neg hbyte]
            cases hscan : scan rounds src with
            | complete n => simp [peekScan, Scan.succ, Nat.add_assoc, Nat.add_comm 1 n]
            | short => rfl
            | tooLong => rfl

/-! ## VarInts -/

/-- The `i32` that a complete VarInt denotes. -/
def varintValue (bs : Bytes) : Int32 := Int32.ofBitVec (BitVec.ofNat 32 (lebValue bs))

theorem readVarint_eq (t : Target) (src : Bytes) :
    readVarint t src = match scan maxVarintLen src with
      | .complete n => .ok (varintValue (src.take n)) (src.drop n)
      | .short => .error .unexpectedEof []
      | .tooLong => .error (.varIntTooLong maxVarintLen) (src.drop maxVarintLen) := by
  have hloop := readGroups_eq (w := 32) t maxVarintLen (by decide) (by decide) maxVarintLen []
    src (by simp)
  have hzero : (0 : BitVec 32) = BitVec.ofNat 32 (lebValue []) := rfl
  rw [readVarint, Exec.bind_apply, hzero]
  rw [List.length_nil] at hloop
  rw [hloop]
  cases scan maxVarintLen src <;> rfl

theorem readVarlong_eq (t : Target) (src : Bytes) :
    readVarlong t src = match scan maxVarlongLen src with
      | .complete n => .ok (Int64.ofBitVec (BitVec.ofNat 64 (lebValue (src.take n)))) (src.drop n)
      | .short => .error .unexpectedEof []
      | .tooLong => .error (.varIntTooLong maxVarlongLen) (src.drop maxVarlongLen) := by
  have hloop := readGroups_eq (w := 64) t maxVarlongLen (by decide) (by decide) maxVarlongLen []
    src (by simp)
  have hzero : (0 : BitVec 64) = BitVec.ofNat 64 (lebValue []) := rfl
  rw [readVarlong, Exec.bind_apply, hzero]
  rw [List.length_nil] at hloop
  rw [hloop]
  cases scan maxVarlongLen src <;> rfl

theorem readVarintSlice_eq (t : Target) (src : Bytes) (s : σ) :
    readVarintSlice t src s = match scan maxVarintLen src with
      | .complete n => .ok (some (varintValue (src.take n), n)) s
      | .short => .ok none s
      | .tooLong => .error (.varIntTooLong maxVarintLen) s := by
  have hloop := readSliceGroups_eq t s maxVarintLen [] src (by simp)
  have hzero : (0 : BitVec 32) = BitVec.ofNat 32 (lebValue []) := rfl
  rw [readVarintSlice, hzero]
  rw [List.length_nil, List.nil_append] at hloop
  rw [hloop]
  cases scan maxVarintLen src <;> simp [peekScan, varintValue]

theorem varintValue_varintBytes (value : Int32) : varintValue (varintBytes value) = value := by
  rw [varintValue, varintBytes, lebValue_lebBytes, BitVec.ofNat_toNat, BitVec.setWidth_eq]
  rfl

theorem length_varintBytes_le (value : Int32) : (varintBytes value).length ≤ maxVarintLen :=
  length_lebBytes_le (k := 4) (lt_trans value.toBitVec.isLt (by norm_num))

theorem length_varintBytes_pos (value : Int32) : 0 < (varintBytes value).length :=
  length_lebBytes_pos _

theorem scan_varintBytes (value : Int32) (rest : Bytes) :
    scan maxVarintLen (varintBytes value ++ rest) = .complete (varintBytes value).length :=
  scan_lebBytes (length_varintBytes_le value) rest

theorem readVarint_append (t : Target) (value : Int32) (rest : Bytes) :
    readVarint t (varintBytes value ++ rest) = .ok value rest := by
  rw [readVarint_eq, scan_varintBytes]
  simp [varintValue_varintBytes]

/-- A VarInt is read from the bytes it takes. -/
theorem readVarint_spec (t : Target) (src : Bytes) :
    (readVarint t src).Satisfies
      (fun value rest => ∃ p, src = p ++ rest ∧ readVarint t p = .ok value []) (fun _ _ => True) := by
  rw [readVarint_eq]
  cases hscan : scan maxVarintLen src with
  | short => trivial
  | tooLong => trivial
  | complete n =>
      refine ⟨src.take n, (List.take_append_drop n src).symm, ?_⟩
      rw [readVarint_eq, scan_take hscan]
      simp [List.take_take]

/-- Whatever follows them. -/
theorem readVarint_of_front {t : Target} {p : Bytes} {value : Int32} (h : readVarint t p = .ok value [])
    (rest : Bytes) : readVarint t (p ++ rest) = .ok value rest := by
  rw [readVarint_eq] at h ⊢
  cases hscan : scan maxVarintLen p with
  | short => simp [hscan] at h
  | tooLong => simp [hscan] at h
  | complete n =>
      rw [hscan] at h
      obtain ⟨rfl, hdrop⟩ := Outcome.ok.inj h
      have hn : n = p.length := Nat.le_antisymm (scan_complete hscan).2.2 (List.drop_eq_nil_iff.mp hdrop)
      rw [scan_append (by rw [hscan]; simp), hscan]
      simp [hn]

/-- The bytes read for a value, of which there are at least as many as the writer would use. -/
theorem varintLen_le_of_read {t : Target} {bs rest : Bytes} {value : Int32}
    (h : readVarint t bs = .ok value rest) : varintLen value + rest.length ≤ bs.length := by
  rw [readVarint_eq] at h
  cases hscan : scan maxVarintLen bs with
  | short => simp [hscan] at h
  | tooLong => simp [hscan] at h
  | complete n =>
      rw [hscan] at h
      obtain ⟨rfl, rfl⟩ := Outcome.ok.inj h
      obtain ⟨hpos, -, hn⟩ := scan_complete hscan
      obtain ⟨k, rfl⟩ : ∃ k, n = k + 1 := ⟨n - 1, by omega⟩
      have hvalue : (varintValue (bs.take (k + 1))).toBitVec.toNat ≤ lebValue (bs.take (k + 1)) := by
        show (BitVec.ofNat 32 (lebValue (bs.take (k + 1)))).toNat ≤ _
        rw [BitVec.toNat_ofNat]
        exact Nat.mod_le _ _
      have hlt := lebValue_lt (bs.take (k + 1))
      rw [List.length_take_of_le hn] at hlt
      have hlen := length_lebBytes_le (lt_of_le_of_lt hvalue hlt)
      rw [← length_varintBytes, List.length_drop]
      rw [varintBytes]
      omega

theorem readVarlong_append (t : Target) (value : Int64) (rest : Bytes) :
    readVarlong t (lebBytes value.toBitVec.toNat ++ rest) = .ok value rest := by
  have hlen : (lebBytes value.toBitVec.toNat).length ≤ maxVarlongLen :=
    length_lebBytes_le (k := 9) (lt_trans value.toBitVec.isLt (by norm_num))
  rw [readVarlong_eq, scan_lebBytes hlen]
  simp only [List.take_left, List.drop_left, lebValue_lebBytes, BitVec.ofNat_toNat, BitVec.setWidth_eq]
  rfl

/-- **The VarInt and VarLong codecs.** What is written is read back and nothing after it; a VarInt takes as
    many bytes as the length table says, and no shorter encoding of its value is accepted. -/
theorem varint_codecs (t : Target) :
    (∀ (value : Int32) (rest : Bytes),
      (writeVarint value : Put ProtocolError Unit).result = .ok () ∧
      readVarint t ((writeVarint value : Put ProtocolError Unit).bytes ++ rest) = .ok value rest ∧
      (writeVarint value : Put ProtocolError Unit).bytes.length = varintLen value ∧
      1 ≤ varintLen value ∧ varintLen value ≤ 5) ∧
    (∀ (value : Int32) (bs rest : Bytes), readVarint t bs = .ok value rest →
      varintLen value + rest.length ≤ bs.length) ∧
    (∀ (value : Int64) (rest : Bytes),
      (writeVarlong value : Put ProtocolError Unit).result = .ok () ∧
      readVarlong t ((writeVarlong value : Put ProtocolError Unit).bytes ++ rest) = .ok value rest ∧
      (writeVarlong value : Put ProtocolError Unit).bytes.length ≤ 10) := by
  refine ⟨fun value rest => ?_, fun value bs rest h => varintLen_le_of_read h, fun value rest => ?_⟩
  · have hpos := length_varintBytes_pos value
    have hle := length_varintBytes_le value
    rw [length_varintBytes] at hpos hle
    rw [writeVarint_eq]
    exact ⟨rfl, readVarint_append t value rest, length_varintBytes value, hpos, hle⟩
  · rw [writeVarlong, writeGroups_eq]
    exact ⟨rfl, readVarlong_append t value rest,
      length_lebBytes_le (k := 9) (lt_trans value.toBitVec.isLt (by norm_num))⟩

theorem varint_codecs_minus_one :
    readVarint .bits64 [255, 255, 255, 255, 15] = .ok (-1) [] ∧ varintLen (-1) + 0 ≤ 5 := by
  have hread : readVarint .bits64 [255, 255, 255, 255, 15] = .ok (-1) [] := by decide +kernel
  exact ⟨hread, (varint_codecs .bits64).2.1 (-1) [255, 255, 255, 255, 15] [] hread⟩

/-! ## The two readers -/

/-- The first five bytes are there, and all of them announce another one. -/
def Overlong (src : Bytes) : Prop :=
  maxVarintLen ≤ src.length ∧ ∀ b ∈ src.take maxVarintLen, b &&& continuationBit ≠ 0

theorem scan_tooLong_iff_overlong {src : Bytes} : scan maxVarintLen src = .tooLong ↔ Overlong src := by
  have hbyte : ∀ b : UInt8, b &&& continuationBit ≠ 0 ↔ 128 ≤ b.toNat := by
    intro b
    rw [ne_eq, and_continuationBit, Nat.not_lt]
  simp only [scan_tooLong_iff, Overlong, hbyte]

/-- **The peeking and the consuming reader agree.** They find the same value in the same bytes, ask for more
    bytes on the same inputs, and refuse the same inputs as too long; and the value is the number that the
    seven-bit groups denote, reduced to 32 bits. -/
theorem readers_agree (t : Target) (src : Bytes) (s : σ) :
    (∀ value n, readVarintSlice t src s = .ok (some (value, n)) s ↔
      n ≤ src.length ∧ readVarint t src = .ok value (src.drop n)) ∧
    (readVarintSlice t src s = .ok none s ↔ ∃ rest, readVarint t src = .error .unexpectedEof rest) ∧
    (readVarintSlice t src s = .error (.varIntTooLong maxVarintLen) s ↔ Overlong src) ∧
    ((∃ rest, readVarint t src = .error (.varIntTooLong maxVarintLen) rest) ↔ Overlong src) ∧
    (∀ value n, readVarintSlice t src s = .ok (some (value, n)) s →
      value.toBitVec.toNat
        = (∑ i : Fin (src.take n).length, (src.take n)[i].toNat % 128 * 128 ^ i.val) % 2 ^ 32) := by
  rw [readVarint_eq, readVarintSlice_eq, ← scan_tooLong_iff_overlong]
  cases hscan : scan maxVarintLen src with
  | short => simp
  | tooLong => simp
  | complete m =>
      obtain ⟨-, -, hm⟩ := scan_complete hscan
      refine ⟨fun value n => ?_, by simp, by simp, by simp, fun value n h => ?_⟩
      · constructor
        · intro h
          cases h
          exact ⟨hm, rfl⟩
        · intro h
          obtain ⟨hn, hread⟩ := h
          obtain ⟨rfl, hdrop⟩ := Outcome.ok.inj hread
          -- what is left says how much was taken
          have hlen := congrArg List.length hdrop
          rw [List.length_drop, List.length_drop] at hlen
          obtain rfl : m = n := by omega
          rfl
      · cases h
        rw [← lebValue_eq_sum]
        exact BitVec.toNat_ofNat (lebValue (src.take m)) 32

theorem readers_agree_two_bytes :
    readVarintSlice .bits64 [128, 1, 170] () = .ok (some (128, 2)) () ∧
      readVarint .bits64 [128, 1, 170] = .ok 128 [170] := by
  have hpeek : readVarintSlice .bits64 [128, 1, 170] () = .ok (some (128, 2)) () := by decide +kernel
  exact ⟨hpeek, (((readers_agree .bits64 [128, 1, 170] ()).1 128 2).mp hpeek).2⟩

/-! ## Totality -/

theorem readVarint_total (t : Target) : (readVarint t).Total := by
  intro src
  rw [readVarint_eq]
  cases scan maxVarintLen src <;> trivial

theorem readVarlong_total (t : Target) : (readVarlong t).Total := by
  intro src
  rw [readVarlong_eq]
  cases scan maxVarlongLen src <;> trivial

end Pyrite.Protocol
