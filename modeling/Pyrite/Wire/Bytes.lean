import Pyrite.Wire.Exec

set_option autoImplicit false

/-! # Byte buffers

Big-endian integers over byte lists, the consuming primitives of a read buffer, and an append-only
writer.

Read buffers are lists of the bytes still unread. The getters are *partial*: asked for more bytes than
remain they panic, so a caller has to check first and a proof has to show that it did.

`Put` is the writing side. It holds the bytes appended so far and the result; the bytes survive an
error, as they do in a buffer that a failed writer leaves half-written. Nothing written before can be
changed, by construction. -/

namespace Wire

variable {ε σ α β : Type}

abbrev Bytes : Type := List UInt8

/-! ## Big-endian numbers -/

/-- The `k` low bytes of `v`, most significant first. -/
def toBe : Nat → Nat → Bytes
  | 0, _ => []
  | k + 1, v => UInt8.ofNat (v / 256 ^ k) :: toBe k v

/-- The number a byte string denotes, most significant byte first. -/
def ofBe : Bytes → Nat
  | [] => 0
  | b :: bs => b.toNat * 256 ^ bs.length + ofBe bs

@[simp] theorem length_toBe (k v : Nat) : (toBe k v).length = k := by
  induction k with
  | zero => rfl
  | succ k ih => simp [toBe, ih]

theorem ofBe_lt (bs : Bytes) : ofBe bs < 256 ^ bs.length := by
  induction bs with
  | nil => simp [ofBe]
  | cons b bs ih =>
      have hb : b.toNat < 256 := b.toNat_lt
      calc ofBe (b :: bs) < b.toNat * 256 ^ bs.length + 256 ^ bs.length := by simp [ofBe, ih]
        _ = (b.toNat + 1) * 256 ^ bs.length := by ring
        _ ≤ 256 * 256 ^ bs.length := Nat.mul_le_mul_right _ (by omega)
        _ = 256 ^ (b :: bs).length := by rw [List.length_cons, pow_succ, Nat.mul_comm]

theorem ofBe_toBe (k v : Nat) : ofBe (toBe k v) = v % 256 ^ k := by
  induction k with
  | zero => simp [toBe, ofBe, Nat.mod_one]
  | succ k ih =>
      have hmod : v % 256 ^ (k + 1) = v % 256 ^ k + 256 ^ k * (v / 256 ^ k % 256) := by
        rw [pow_succ, Nat.mod_mul]
      rw [toBe, ofBe, length_toBe, ih, UInt8.toNat_ofNat', hmod]
      ring

/-- Only the low bytes of `v` matter. -/
theorem toBe_add_mul (k v w : Nat) : toBe k (v + w * 256 ^ k) = toBe k v := by
  induction k generalizing w with
  | zero => rfl
  | succ k ih =>
      have hv : v + w * 256 ^ (k + 1) = v + w * 256 * 256 ^ k := by ring
      rw [toBe, toBe, hv, ih, Nat.add_mul_div_right _ _ (by positivity)]
      congr 1
      apply UInt8.toNat_inj.mp
      rw [UInt8.toNat_ofNat', UInt8.toNat_ofNat', Nat.add_mul_mod_self_right]

theorem toBe_ofBe (bs : Bytes) : toBe bs.length (ofBe bs) = bs := by
  induction bs with
  | nil => rfl
  | cons b bs ih =>
      have hlt := ofBe_lt bs
      have hdiv : (b.toNat * 256 ^ bs.length + ofBe bs) / 256 ^ bs.length = b.toNat := by
        rw [Nat.add_comm, Nat.add_mul_div_right _ _ (by positivity), Nat.div_eq_of_lt hlt,
          Nat.zero_add]
      rw [List.length_cons, toBe, ofBe, hdiv, Nat.add_comm, toBe_add_mul, ih]
      simp

/-- The digit of a number at the place of one of its bytes. -/
theorem ofBe_digit (bs : Bytes) (i : Nat) (h : i < bs.length) :
    ofBe bs / 256 ^ (bs.length - 1 - i) % 256 = (bs.get ⟨i, h⟩).toNat := by
  induction bs generalizing i with
  | nil => cases h
  | cons b bs ih =>
      have hlt := ofBe_lt bs
      cases i with
      | zero =>
          have hb : b.toNat < 256 := b.toNat_lt
          show (b.toNat * 256 ^ bs.length + ofBe bs) / 256 ^ bs.length % 256 = b.toNat
          rw [Nat.add_comm, Nat.add_mul_div_right _ _ (by positivity), Nat.div_eq_of_lt hlt, Nat.zero_add,
            Nat.mod_eq_of_lt hb]
      | succ i =>
          have hi : i < bs.length := Nat.lt_of_succ_lt_succ h
          -- the leading byte is a multiple of a higher power
          have hpow : 256 ^ bs.length = 256 ^ (i + 1) * 256 ^ (bs.length - 1 - i) := by
            rw [← pow_add]
            congr 1
            omega
          have hexp : (b :: bs).length - 1 - (i + 1) = bs.length - 1 - i := by
            rw [List.length_cons]
            omega
          rw [hexp, ofBe, hpow, Nat.add_comm, ← Nat.mul_assoc, Nat.add_mul_div_right _ _ (by positivity),
            pow_succ, ← Nat.mul_assoc, Nat.add_mul_mod_self_right]
          exact ih i hi

/-! ## Fixed-width words -/

/-- A type whose values are exactly the numbers of `size` bytes. -/
class Word (α : Type) where
  size : Nat
  toNat : α → Nat
  ofNat : Nat → α
  toNat_lt : ∀ a, toNat a < 256 ^ size
  ofNat_toNat : ∀ a, ofNat (toNat a) = a
  toNat_ofNat : ∀ n, n < 256 ^ size → toNat (ofNat n) = n

instance : Word UInt8 where
  size := 1
  toNat := UInt8.toNat
  ofNat := UInt8.ofNat
  toNat_lt a := a.toNat_lt
  ofNat_toNat a := by simp
  toNat_ofNat n hn := by simpa using hn

instance : Word UInt16 where
  size := 2
  toNat := UInt16.toNat
  ofNat := UInt16.ofNat
  toNat_lt a := a.toNat_lt
  ofNat_toNat a := by simp
  toNat_ofNat n hn := by simpa using hn

instance : Word UInt32 where
  size := 4
  toNat := UInt32.toNat
  ofNat := UInt32.ofNat
  toNat_lt a := a.toNat_lt
  ofNat_toNat a := by simp
  toNat_ofNat n hn := by simpa using hn

instance : Word UInt64 where
  size := 8
  toNat := UInt64.toNat
  ofNat := UInt64.ofNat
  toNat_lt a := a.toNat_lt
  ofNat_toNat a := by simp
  toNat_ofNat n hn := by simpa using hn

instance : Word (BitVec 128) where
  size := 16
  toNat := BitVec.toNat
  ofNat := BitVec.ofNat 128
  toNat_lt a := a.isLt
  ofNat_toNat a := by simp
  toNat_ofNat n hn := by simpa using hn

/-- A bijection onto a word is a word: the two's-complement integers are read off the unsigned ones
    of the same width. -/
@[reducible] def Word.ofEquiv [Word α] (e : β ≃ α) : Word β where
  size := Word.size α
  toNat b := Word.toNat (e b)
  ofNat n := e.symm (Word.ofNat n)
  toNat_lt b := Word.toNat_lt (e b)
  ofNat_toNat b := by simp [Word.ofNat_toNat]
  toNat_ofNat n hn := by simp [Word.toNat_ofNat n hn]

instance : Word Int8 := Word.ofEquiv ⟨Int8.toUInt8, UInt8.toInt8, fun _ => rfl, fun _ => rfl⟩
instance : Word Int16 := Word.ofEquiv ⟨Int16.toUInt16, UInt16.toInt16, fun _ => rfl, fun _ => rfl⟩
instance : Word Int32 := Word.ofEquiv ⟨Int32.toUInt32, UInt32.toInt32, fun _ => rfl, fun _ => rfl⟩
instance : Word Int64 := Word.ofEquiv ⟨Int64.toUInt64, UInt64.toInt64, fun _ => rfl, fun _ => rfl⟩

/-- The big-endian encoding of a word. -/
def wordBytes [Word α] (a : α) : Bytes := toBe (Word.size α) (Word.toNat a)

@[simp] theorem length_wordBytes [Word α] (a : α) : (wordBytes a).length = Word.size α :=
  length_toBe _ _

theorem ofBe_wordBytes [Word α] (a : α) : (Word.ofNat (ofBe (wordBytes a)) : α) = a := by
  rw [wordBytes, ofBe_toBe, Nat.mod_eq_of_lt (Word.toNat_lt a), Word.ofNat_toNat]

theorem wordBytes_ofBe [Word α] (bs : Bytes) (h : bs.length = Word.size α) :
    wordBytes (Word.ofNat (ofBe bs) : α) = bs := by
  have hlt : ofBe bs < 256 ^ Word.size α := h ▸ ofBe_lt bs
  rw [wordBytes, Word.toNat_ofNat _ hlt, ← h, toBe_ofBe]

theorem wordBytes_u8 (b : UInt8) : wordBytes b = [b] := by
  simp [wordBytes, toBe, Word.size, Word.toNat]

/-! ## Reading -/

namespace Exec

/-- The number of bytes left. -/
def remaining : Exec ε Bytes Nat := fun src => .ok src.length src

/-- Split `n` bytes off the front. Panics if fewer remain. -/
def take (n : Nat) : Exec ε Bytes Bytes := fun src =>
  if src.length < n then .panic else .ok (src.take n) (src.drop n)

/-- Consume one big-endian word. Panics if fewer bytes remain than the word is wide. -/
def get [Word α] : Exec ε Bytes α := do
  let bs ← take (Word.size α)
  pure (Word.ofNat (ofBe bs))

@[simp] theorem remaining_apply (src : Bytes) :
    (remaining : Exec ε Bytes Nat) src = .ok src.length src := rfl

theorem take_append (bs rest : Bytes) :
    (take bs.length : Exec ε Bytes Bytes) (bs ++ rest) = .ok bs rest := by
  simp [take]

theorem take_spec {n : Nat} {src : Bytes} {E : ε → Bytes → Prop} (h : n ≤ src.length) :
    (take n src).Satisfies (fun bs src' => src = bs ++ src' ∧ bs.length = n) E := by
  simp only [take, if_neg (Nat.not_lt.mpr h), Outcome.satisfies_ok]
  exact ⟨(List.take_append_drop n src).symm, List.length_take_of_le h⟩

theorem get_append [Word α] (a : α) (rest : Bytes) :
    (get : Exec ε Bytes α) (wordBytes a ++ rest) = .ok a rest := by
  have htake := take_append (ε := ε) (wordBytes a) rest
  rw [length_wordBytes] at htake
  simp [get, htake, ofBe_wordBytes]

@[simp] theorem get_u8 (b : UInt8) (rest : Bytes) :
    (get : Exec ε Bytes UInt8) (b :: rest) = .ok b rest := by
  simpa [wordBytes_u8] using get_append (ε := ε) b rest

theorem get_spec [Word α] {src : Bytes} {E : ε → Bytes → Prop} (h : Word.size α ≤ src.length) :
    ((get : Exec ε Bytes α) src).Satisfies (fun a src' => src = wordBytes a ++ src') E := by
  refine (take_spec h).bind fun bs src' hbs => ?_
  obtain ⟨rfl, hlen⟩ := hbs
  simp [wordBytes_ofBe bs hlen]

end Exec

/-! ## Writing -/

/-- An append-only writer: the bytes appended, also by a writer that then failed, and the result. -/
structure Put (ε α : Type) where
  bytes : Bytes
  result : Except ε α

namespace Put

instance : Monad (Put ε) where
  pure a := ⟨[], .ok a⟩
  bind x f := match x.result with
    | .ok a => ⟨x.bytes ++ (f a).bytes, (f a).result⟩
    | .error e => ⟨x.bytes, .error e⟩

/-- Append raw bytes. -/
def slice (bs : Bytes) : Put ε Unit := ⟨bs, .ok ()⟩

/-- Append one big-endian word. -/
def word [Word α] (a : α) : Put ε Unit := slice (wordBytes a)

def throw (e : ε) : Put ε α := ⟨[], .error e⟩

/-- Lift a fallible computation that writes nothing. -/
def lift (x : Except ε α) : Put ε α := ⟨[], x⟩

theorem slice_bytes (bs : Bytes) : (slice bs : Put ε Unit).bytes = bs := rfl

theorem slice_bind_slice (xs ys : Bytes) :
    (slice xs >>= fun _ => slice ys : Put ε Unit) = slice (xs ++ ys) := rfl

/-- The writer succeeded with `a` and appended exactly `bs`. -/
def Writes (x : Put ε α) (bs : Bytes) (a : α) : Prop := x.bytes = bs ∧ x.result = .ok a

@[simp] theorem writes_pure {a b : α} {bs : Bytes} : (pure a : Put ε α).Writes bs b ↔ bs = [] ∧ a = b := by
  simp [Writes, pure, eq_comm]

@[simp] theorem writes_slice {bs bs' : Bytes} {u : Unit} :
    (slice bs : Put ε Unit).Writes bs' u ↔ bs' = bs := by
  simp [Writes, slice, eq_comm]

@[simp] theorem writes_word [Word α] {a : α} {bs : Bytes} {u : Unit} :
    (word a : Put ε Unit).Writes bs u ↔ bs = wordBytes a :=
  writes_slice

@[simp] theorem not_writes_throw {e : ε} {bs : Bytes} {a : α} : ¬ (throw e : Put ε α).Writes bs a := by
  simp [Writes, throw]

@[simp] theorem writes_lift {x : Except ε α} {bs : Bytes} {a : α} :
    (lift x).Writes bs a ↔ bs = [] ∧ x = .ok a := by
  simp [Writes, lift, eq_comm]

/-- The bind lemma for writers: a sequence succeeds exactly when both parts do, and it appends the
    bytes of the one after those of the other. -/
theorem writes_bind {x : Put ε α} {f : α → Put ε β} {bs : Bytes} {b : β} :
    (x >>= f).Writes bs b ↔
      ∃ bs₁ a bs₂, x.Writes bs₁ a ∧ (f a).Writes bs₂ b ∧ bs = bs₁ ++ bs₂ := by
  obtain ⟨xs, r⟩ := x
  cases r with
  | ok a =>
      simp only [Writes, bind]
      constructor
      · intro hparts
        obtain ⟨rfl, hr⟩ := hparts
        exact ⟨xs, a, (f a).bytes, ⟨rfl, rfl⟩, ⟨rfl, hr⟩, rfl⟩
      · intro hparts
        obtain ⟨bs₁, a', bs₂, ⟨rfl, ha⟩, ⟨rfl, hr⟩, rfl⟩ := hparts
        obtain rfl : a = a' := by simpa using ha
        exact ⟨rfl, hr⟩
  | error e => simp [Writes, bind]

/-- `writes_bind` for a first part without a result, the form the simp set uses. -/
@[simp] theorem writes_seq {x : Put ε Unit} {f : Unit → Put ε β} {bs : Bytes} {b : β} :
    (x >>= f).Writes bs b ↔
      ∃ bs₁ bs₂, x.Writes bs₁ () ∧ (f ()).Writes bs₂ b ∧ bs = bs₁ ++ bs₂ := by
  simp only [writes_bind]
  constructor
  · intro hparts
    obtain ⟨bs₁, _, bs₂, h⟩ := hparts
    exact ⟨bs₁, bs₂, h⟩
  · intro hparts
    obtain ⟨bs₁, bs₂, h⟩ := hparts
    exact ⟨bs₁, (), bs₂, h⟩

@[simp] theorem writes_lift_bind {x : Except ε α} {f : α → Put ε β} {bs : Bytes} {b : β} :
    (lift x >>= f).Writes bs b ↔ ∃ a, x = .ok a ∧ (f a).Writes bs b := by
  simp only [writes_bind, writes_lift]
  constructor
  · intro hparts
    obtain ⟨_, a, bs, ⟨rfl, ha⟩, hf, rfl⟩ := hparts
    exact ⟨a, ha, hf⟩
  · intro hparts
    obtain ⟨a, ha, hf⟩ := hparts
    exact ⟨[], a, bs, ⟨rfl, ha⟩, hf, rfl⟩

end Put

end Wire
