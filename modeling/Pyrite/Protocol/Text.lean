import Pyrite.Protocol.Buf

set_option autoImplicit false

/-! # Character caps

The cap of a string field is in characters, as the protocol counts them: UTF-16 code units. The reader
checks it in bytes, three for each character. That is enough to let every legal string through
(`legal_string_accepted`), and too much to keep every other one out: a string of small characters may have
up to three times as many of them as the cap allows (`caps_enforced_iff`). -/

namespace Pyrite.Protocol

open Wire

/-- A string with its length prefix, at the front of a buffer: the prefix is a VarInt, not necessarily the
    shortest, that says how many bytes the string has. -/
def StartsWithString (t : Target) (src : Bytes) (value : String) (rest : Bytes) : Prop :=
  ∃ p, src = p ++ (utf8 value ++ rest) ∧ readVarint t p = .ok (Int32.ofNat (utf8 value).length) [] ∧
    (utf8 value).length < 2147483648

theorem readString_spec (t : Target) (maxChars : Nat) (src : Bytes) :
    (readString t maxChars src).Satisfies
      (fun value rest => StartsWithString t src value rest ∧ (utf8 value).length ≤ 3 * maxChars)
      (fun _ _ => True) := by
  refine (readVarint_spec t src).bind fun declared src₁ hread => ?_
  obtain ⟨p, rfl, hp⟩ := hread
  cases hlen : Target.tryFromInt32 declared with
  | none => trivial
  | some len =>
      obtain ⟨rfl, hlt⟩ := Target.tryFromInt32_eq_some hlen
      dsimp only
      rw [Exec.ite_apply]
      split_ifs with hmax
      · trivial
      rw [Exec.bind_apply, Exec.remaining_apply, Outcome.bind_ok, Exec.ite_apply]
      split_ifs with hshort
      · trivial
      refine (Exec.take_spec (E := fun _ _ => True) (Nat.not_lt.mp hshort)).bind fun bytes rest htake => ?_
      obtain ⟨rfl, hbytes⟩ := htake
      cases hutf8 : fromUtf8 bytes with
      | none => trivial
      | some value =>
          obtain rfl := fromUtf8_eq_some.mp hutf8
          subst hbytes
          refine ⟨⟨p, rfl, hp, hlt⟩, ?_⟩
          rw [exceeds_cap_iff t hlt] at hmax
          exact Nat.not_lt.mp hmax

/-- **What `readString` accepts**: a string whose bytes are within three for each character. -/
theorem readString_ok_iff {t : Target} {maxChars : Nat} {src rest : Bytes} {value : String} :
    readString t maxChars src = .ok value rest ↔
      StartsWithString t src value rest ∧ (utf8 value).length ≤ 3 * maxChars := by
  constructor
  · intro h
    exact (readString_spec t maxChars src).of_ok h
  · intro h
    obtain ⟨⟨p, rfl, hp, hlen⟩, hcap⟩ := h
    rw [readString_of_front hp hlen, if_neg]
    rw [exceeds_cap_iff t hlen]
    exact Nat.not_lt.mpr hcap

/-- **The byte cap never rejects a legal string.** A string within its cap is read back, and nothing after
    it. -/
theorem legal_string_accepted (t : Target) (maxChars : Nat) (value : String) (rest : Bytes)
    (hlen : (utf8 value).length < 2147483648) (hcap : utf16Len value ≤ maxChars) :
    (writeString value : Put ProtocolError Unit).result = .ok () ∧
      readString t maxChars ((writeString value : Put ProtocolError Unit).bytes ++ rest) = .ok value rest := by
  have hle : (utf8 value).length ≤ 3 * maxChars :=
    le_trans (length_utf8_le value) (Nat.mul_le_mul_left 3 hcap)
  have hlength := readVarint_append t (Int32.ofNat (utf8 value).length) []
  rw [List.append_nil] at hlength
  rw [writeString_eq]
  refine ⟨rfl, readString_ok_iff.mpr ⟨⟨_, ?_, hlength, hlen⟩, hle⟩⟩
  exact List.append_assoc _ _ _

/-- A surrogate pair counts as two characters, and its four bytes are within the cap of two. -/
theorem legal_string_accepted_pair :
    readString .bits64 2 ((writeString "😀" : Put ProtocolError Unit).bytes ++ [7]) = .ok "😀" [7] :=
  (legal_string_accepted .bits64 2 "😀" [7] (by decide +kernel) (by decide +kernel)).2

/-- **When caps are enforced.** The string that is read has at most as many characters as the cap, unless the
    buffer starts with one that has more of them in at most three bytes for each permitted one. -/
theorem caps_enforced_iff (t : Target) (maxChars : Nat) (src : Bytes) :
    (∀ value rest, readString t maxChars src = .ok value rest → utf16Len value ≤ maxChars) ↔
      ¬ ∃ value rest, StartsWithString t src value rest ∧ (utf8 value).length ≤ 3 * maxChars ∧
        maxChars < utf16Len value := by
  constructor
  · intro henforced hstarts
    obtain ⟨value, rest, hstring, hle, hover⟩ := hstarts
    have hcap := henforced value rest (readString_ok_iff.mpr ⟨hstring, hle⟩)
    omega
  · intro hnone value rest hread
    obtain ⟨hstring, hle⟩ := readString_ok_iff.mp hread
    by_contra hover
    exact hnone ⟨value, rest, hstring, hle, Nat.not_le.mp hover⟩

/-- Seventeen letters pass the cap of a player name, sixteen characters. -/
theorem seventeen_letters_pass_cap :
    ¬ ∀ value rest, readString .bits64 16 (17 :: List.replicate 17 97) = .ok value rest →
      utf16Len value ≤ 16 := by
  intro henforced
  have hread : readString .bits64 16 (17 :: List.replicate 17 97) = .ok "aaaaaaaaaaaaaaaaa" [] := by
    decide +kernel
  exact absurd (henforced "aaaaaaaaaaaaaaaaa" [] hread) (by decide +kernel)

end Pyrite.Protocol
