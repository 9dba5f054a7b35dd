import Pyrite.Wire.Bytes

set_option autoImplicit false

/-! # Base-128 numbers

Little-endian base-128 numbers: seven bits of the number in each byte, and the high bit of a byte set
when another one follows. `lebBytes` is the shortest encoding of a number and `lebValue` what a byte
string denotes. `scan` finds where the number at the front of a buffer ends, if it does within a given
number of bytes; what a reader does to a buffer is a function of this answer, and the answer is stable
under bytes that arrive later (`scan_append`). -/

namespace Wire

/-- The number a byte string denotes, least significant group first. High bits are ignored. -/
def lebValue : Bytes → Nat
  | [] => 0
  | b :: bs => b.toNat % 128 + 128 * lebValue bs

/-- The shortest encoding of a number. -/
def lebBytes (n : Nat) : Bytes :=
  if n < 128 then [UInt8.ofNat n] else UInt8.ofNat (n % 128 + 128) :: lebBytes (n / 128)

theorem lebBytes_of_lt {n : Nat} (h : n < 128) : lebBytes n = [UInt8.ofNat n] := by
  rw [lebBytes, if_pos h]

theorem lebBytes_of_ge {n : Nat} (h : 128 ≤ n) :
    lebBytes n = UInt8.ofNat (n % 128 + 128) :: lebBytes (n / 128) := by
  rw [lebBytes, if_neg (Nat.not_lt.mpr h)]

/-! ## Values -/

theorem lebValue_lt (bs : Bytes) : lebValue bs < 128 ^ bs.length := by
  induction bs with
  | nil => simp [lebValue]
  | cons b bs ih =>
      rw [lebValue, List.length_cons, pow_succ]
      have hb : b.toNat % 128 < 128 := Nat.mod_lt _ (by decide)
      omega

theorem lebValue_eq_sum (bs : Bytes) :
    lebValue bs = ∑ i : Fin bs.length, bs[i].toNat % 128 * 128 ^ i.val := by
  induction bs with
  | nil => rfl
  | cons b bs ih =>
      have hrest : ∑ i : Fin bs.length, bs[i].toNat % 128 * 128 ^ (i.val + 1)
          = 128 * ∑ i : Fin bs.length, bs[i].toNat % 128 * 128 ^ i.val := by
        rw [Finset.mul_sum]
        refine Finset.sum_congr rfl fun i _ => ?_
        rw [pow_succ]
        ring
      rw [lebValue, ih, ← hrest]
      simp only [List.length_cons]
      rw [Fin.sum_univ_succ]
      simp

theorem lebValue_append (xs ys : Bytes) :
    lebValue (xs ++ ys) = lebValue xs + 128 ^ xs.length * lebValue ys := by
  induction xs with
  | nil => simp [lebValue]
  | cons x xs ih =>
      rw [List.cons_append, lebValue, ih, lebValue, List.length_cons, pow_succ]
      ring

theorem lebValue_lebBytes (n : Nat) : lebValue (lebBytes n) = n := by
  induction n using Nat.strongRecOn with
  | ind n ih =>
      by_cases h : n < 128
      · rw [lebBytes_of_lt h, lebValue, lebValue, UInt8.toNat_ofNat']
        omega
      · have hge := Nat.not_lt.mp h
        rw [lebBytes_of_ge hge, lebValue, ih (n / 128) (by omega), UInt8.toNat_ofNat']
        omega

/-- Shifting the next group into place extends the value, modulo the width of the word. -/
theorem or_group {w : Nat} (bs : Bytes) (b : UInt8) :
    BitVec.ofNat w (lebValue bs) ||| BitVec.ofNat w (b.toNat % 128) <<< (7 * bs.length)
      = BitVec.ofNat w (lebValue (bs ++ [b])) := by
  have hlt : lebValue bs < 2 ^ (7 * bs.length) := by
    rw [pow_mul]
    exact lebValue_lt bs
  have hvalue : lebValue (bs ++ [b]) = lebValue bs ||| (b.toNat % 128) <<< (7 * bs.length) := by
    rw [Nat.or_comm, ← Nat.shiftLeft_add_eq_or_of_lt hlt, lebValue_append, lebValue, lebValue,
      Nat.shiftLeft_eq, pow_mul]
    ring
  apply BitVec.eq_of_toNat_eq
  rw [hvalue, BitVec.toNat_or, BitVec.toNat_shiftLeft, BitVec.toNat_ofNat, BitVec.toNat_ofNat,
    BitVec.toNat_ofNat, Nat.or_mod_two_pow]
  congr 1
  rw [Nat.shiftLeft_eq, Nat.shiftLeft_eq, Nat.mod_mul_mod]

/-! ## Lengths -/

theorem length_lebBytes_pos (n : Nat) : 0 < (lebBytes n).length := by
  rw [lebBytes]
  split <;> simp

theorem length_lebBytes_le {k n : Nat} (h : n < 128 ^ (k + 1)) : (lebBytes n).length ≤ k + 1 := by
  induction k generalizing n with
  | zero => simp [lebBytes_of_lt (show n < 128 by simpa using h)]
  | succ k ih =>
      by_cases hn : n < 128
      · simp [lebBytes_of_lt hn]
      · have hdiv : n / 128 < 128 ^ (k + 1) := by
          rw [Nat.div_lt_iff_lt_mul (by decide), ← pow_succ]
          exact h
        rw [lebBytes_of_ge (Nat.not_lt.mp hn), List.length_cons]
        have hlen := ih hdiv
        omega

theorem lt_length_lebBytes {k n : Nat} (h : 128 ^ k ≤ n) : k < (lebBytes n).length := by
  induction k generalizing n with
  | zero => exact length_lebBytes_pos n
  | succ k ih =>
      have hpow : 128 ^ (k + 1) = 128 ^ k * 128 := pow_succ 128 k
      have hpos : 0 < 128 ^ k := by positivity
      have hdiv : 128 ^ k ≤ n / 128 := by
        rw [Nat.le_div_iff_mul_le (by decide), ← hpow]
        exact h
      rw [lebBytes_of_ge (by omega), List.length_cons]
      have hlen := ih hdiv
      omega

theorem length_lebBytes {k n : Nat} (hlower : 128 ^ k ≤ n) (hupper : n < 128 ^ (k + 1)) :
    (lebBytes n).length = k + 1 :=
  Nat.le_antisymm (length_lebBytes_le hupper) (lt_length_lebBytes hlower)

/-! ## Where a number ends -/

/-- What a buffer says about the number at its front. -/
inductive Scan where
  /-- It takes the first `n` bytes. -/
  | complete (n : Nat)
  /-- The buffer ends inside it. -/
  | short
  /-- It does not end within the permitted number of bytes. -/
  | tooLong
  deriving DecidableEq, Repr

/-- The answer for a buffer with one more byte in front. -/
def Scan.succ : Scan → Scan
  | complete n => complete (n + 1)
  | short => short
  | tooLong => tooLong

theorem Scan.succ_eq_complete {r : Scan} {n : Nat} (h : r.succ = .complete n) :
    ∃ m, r = .complete m ∧ n = m + 1 := by
  cases r with
  | complete m => exact ⟨m, rfl, (Scan.complete.inj h).symm⟩
  | short => cases h
  | tooLong => cases h

/-- Look for the end of a number of at most `max` bytes. -/
def scan : Nat → Bytes → Scan
  | 0, _ => .tooLong
  | _ + 1, [] => .short
  | max + 1, b :: bs => if b.toNat < 128 then .complete 1 else (scan max bs).succ

theorem scan_complete {max n : Nat} {bs : Bytes} (h : scan max bs = .complete n) :
    0 < n ∧ n ≤ max ∧ n ≤ bs.length := by
  induction max generalizing bs n with
  | zero => simp [scan] at h
  | succ max ih =>
      cases bs with
      | nil => simp [scan] at h
      | cons b bs =>
          rw [scan] at h
          split_ifs at h with hb
          · obtain rfl : 1 = n := by simpa using h
            simp
          · obtain ⟨m, hscan, rfl⟩ := Scan.succ_eq_complete h
            have hm := ih hscan
            simp only [List.length_cons]
            omega

/-- The bytes of a number are enough to find its end. -/
theorem scan_take {max n : Nat} {bs : Bytes} (h : scan max bs = .complete n) :
    scan max (bs.take n) = .complete n := by
  induction max generalizing bs n with
  | zero => simp [scan] at h
  | succ max ih =>
      cases bs with
      | nil => simp [scan] at h
      | cons b bs =>
          rw [scan] at h
          split_ifs at h with hb
          · obtain rfl : 1 = n := by simpa using h
            simp [scan, hb]
          · obtain ⟨m, hscan, rfl⟩ := Scan.succ_eq_complete h
            rw [List.take_succ_cons, scan, if_neg hb, ih hscan]
            rfl

/-- Bytes that all announce another one are the start of a number, as long as there may be another. -/
theorem scan_short {max : Nat} {bs : Bytes} (hlen : bs.length < max) (h : ∀ b ∈ bs, 128 ≤ b.toNat) :
    scan max bs = .short := by
  induction bs generalizing max with
  | nil =>
      obtain ⟨max, rfl⟩ : ∃ k, max = k + 1 := ⟨max - 1, by simp at hlen; omega⟩
      rfl
  | cons b bs ih =>
      obtain ⟨max, rfl⟩ : ∃ k, max = k + 1 := ⟨max - 1, by simp at hlen; omega⟩
      have hb := h b (List.mem_cons_self ..)
      have hbs := ih (Nat.lt_of_succ_lt_succ hlen) fun b' hb' => h b' (List.mem_cons_of_mem b hb')
      rw [scan, if_neg (Nat.not_lt.mpr hb), hbs]
      rfl

/-- The permitted bytes are there, and all of them announce another one. -/
theorem scan_tooLong_iff {max : Nat} {bs : Bytes} :
    scan max bs = .tooLong ↔ max ≤ bs.length ∧ ∀ b ∈ bs.take max, 128 ≤ b.toNat := by
  induction max generalizing bs with
  | zero => simp [scan]
  | succ max ih =>
      cases bs with
      | nil => simp [scan]
      | cons b bs =>
          have hsucc : (scan max bs).succ = .tooLong ↔ scan max bs = .tooLong := by
            cases scan max bs <;> simp [Scan.succ]
          rw [scan, List.length_cons, List.take_succ_cons, List.forall_mem_cons]
          split_ifs with hb
          · exact iff_of_false (fun h => nomatch h) fun h => absurd hb (Nat.not_lt.mpr h.2.1)
          · rw [hsucc, ih, Nat.succ_le_succ_iff]
            exact ⟨fun h => ⟨h.1, Nat.not_lt.mp hb, h.2⟩, fun h => ⟨h.1, h.2.2⟩⟩

/-- More bytes never change an answer that did not ask for them. -/
theorem scan_append {max : Nat} {xs : Bytes} (h : scan max xs ≠ .short) (ys : Bytes) :
    scan max (xs ++ ys) = scan max xs := by
  induction max generalizing xs with
  | zero => rfl
  | succ max ih =>
      cases xs with
      | nil => simp [scan] at h
      | cons x xs =>
          rw [List.cons_append, scan, scan]
          rw [scan] at h
          split_ifs at h ⊢ with hx
          · rfl
          · have hxs : scan max xs ≠ .short := fun hshort => h (by rw [hshort]; rfl)
            rw [ih hxs]

theorem scan_lebBytes {max n : Nat} (h : (lebBytes n).length ≤ max) (rest : Bytes) :
    scan max (lebBytes n ++ rest) = .complete (lebBytes n).length := by
  induction max generalizing n with
  | zero =>
      have hpos := length_lebBytes_pos n
      omega
  | succ max ih =>
      by_cases hn : n < 128
      · have hbyte : (UInt8.ofNat n).toNat < 128 := by
          rw [UInt8.toNat_ofNat']
          omega
        rw [lebBytes_of_lt hn, List.cons_append, scan, if_pos hbyte]
        rfl
      · have hbyte : ¬ (UInt8.ofNat (n % 128 + 128)).toNat < 128 := by
          rw [UInt8.toNat_ofNat']
          omega
        rw [lebBytes_of_ge (Nat.not_lt.mp hn)] at h ⊢
        rw [List.length_cons] at h ⊢
        rw [List.cons_append, scan, if_neg hbyte, ih (by omega)]
        rfl

end Wire
