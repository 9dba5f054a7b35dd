import Pyrite.Nbt.Truncation
import Pyrite.Protocol.Buf

set_option autoImplicit false

/-! # NBT in packets

`write_nbt` and `read_nbt` of `crates/protocol/src/buf.rs`. A document stands between other fields, so its
reader never sees where it ends but by reading it. What it makes of it does not depend on the fields behind:
a document is the same document whatever follows, and one that is refused stays refused, unless the bytes
have run out (`verdicts_final`). -/

/-! ## Roots, whatever follows -/

namespace Pyrite.Nbt

open Wire

variable {t : Target} {src more : Bytes}

theorem follows_optionalNetworkRoot (t : Target) :
    Exec.Follows (Cut more) NbtError.Truncated (readOptionalNetworkRoot t) := by
  refine follows_tagId.bind fun id => ?_
  cases id with
  | endTag => exact Exec.follows_pure none
  | compound => exact (follows_rootBody t).bind fun c => Exec.follows_pure (some c)
  | _ => exact Exec.follows_throw _

/-- The body of a root, with bytes added behind it. -/
theorem RootRead.append {rest : Bytes} {d : NbtCompound} (h : RootRead src d rest)
    (hfits : (src ++ more).length ≤ t.usizeMax) : readRootBody t (src ++ more) = .ok d (rest ++ more) := by
  obtain ⟨bs, hbs, rfl⟩ := h.bytes
  rw [List.append_assoc] at hfits ⊢
  exact (readRootBody_append h.wf hbs (by rwa [List.length_append] at hfits)).1 h.budget

theorem decided_networkRoot (hfits : (src ++ more).length ≤ t.usizeMax) :
    Exec.Decided (readNetworkRoot t) NbtError.Truncated src more := by
  refine (follows_networkRoot t).decided (readNetworkRoot_spec t src) ?_
  rintro d rest ⟨body, rfl, hread⟩
  have hbody := hread.append (Nat.le_of_succ_le hfits)
  simpa [readNetworkRoot, readTagId_append] using hbody

theorem decided_namedRoot (hfits : (src ++ more).length ≤ t.usizeMax) :
    Exec.Decided (readNamedRoot t) NbtError.Truncated src more := by
  refine (follows_namedRoot t).decided (readNamedRoot_spec t src) ?_
  rintro ⟨name, d⟩ rest ⟨q, body, hq, rfl, hread⟩
  have hname := readNbtString_append hq (body ++ more)
  simp only [List.cons_append, List.length_cons, List.append_assoc, List.length_append] at hfits
  have hbodyFits : (body ++ more).length ≤ t.usizeMax := by
    rw [List.length_append]
    omega
  have hbody := hread.append hbodyFits
  simp [readNamedRoot, readTagId_append, hname, hbody]

/-- Where there is no document, there is an `End`. -/
theorem readOptionalNetworkRoot_cases (t : Target) (src : Bytes) :
    (readOptionalNetworkRoot t src).Satisfies
      (fun r rest => (r = none ∧ src = TagId.endTag.toU8 :: rest) ∨
        ∃ c body, r = some c ∧ src = TagId.compound.toU8 :: body ∧ RootRead body c rest)
      (fun _ _ => True) := by
  refine (readTagId_spec src).bind fun id body hid => ?_
  cases id with
  | endTag => exact Or.inl ⟨rfl, hid⟩
  | compound =>
      refine (readRootBody_spec t body).bind fun c rest h => ?_
      exact Or.inr ⟨c, body, rfl, hid, h⟩
  | _ => trivial

theorem decided_optionalNetworkRoot (hfits : (src ++ more).length ≤ t.usizeMax) :
    Exec.Decided (readOptionalNetworkRoot t) NbtError.Truncated src more := by
  refine (follows_optionalNetworkRoot t).decided (readOptionalNetworkRoot_cases t src) ?_
  rintro r rest (⟨rfl, rfl⟩ | ⟨c, body, rfl, rfl, hread⟩)
  · simp [readOptionalNetworkRoot, readTagId_append]
  · have hbody := hread.append (Nat.le_of_succ_le hfits)
    simp [readOptionalNetworkRoot, readTagId_append, hbody]

end Pyrite.Nbt

/-! ## The field -/

namespace Pyrite.Protocol

open Wire Nbt

/-- Write a document in the network form. -/
def writeNbt (value : NbtCompound) : Put ProtocolError Unit where
  bytes := (writeNetworkRoot value).bytes
  result := (writeNetworkRoot value).result.mapError .nbt

/-- Read a document in the network form. -/
def readNbt (t : Target) : Exec ProtocolError Bytes NbtCompound := Exec.mapError .nbt (readNetworkRoot t)

theorem writes_nbt {value : NbtCompound} {bs : Bytes} {u : Unit} :
    (writeNbt value).Writes bs u ↔ (writeNetworkRoot value).Writes bs u := by
  cases hresult : (writeNetworkRoot value).result with
  | ok a => simp [Put.Writes, writeNbt, hresult, Except.mapError]
  | error e => simp [Put.Writes, writeNbt, hresult, Except.mapError]

theorem readNbt_eq_ok {t : Target} {src rest : Bytes} {d : NbtCompound} :
    readNbt t src = .ok d rest ↔ readNetworkRoot t src = .ok d rest := by
  unfold readNbt Exec.mapError
  cases readNetworkRoot t src <;> simp

/-- **Verdicts are final.** Whatever the bytes are and whatever follows them: a document that a reader returns
    is returned with `more` behind it, and with `more` left; and what it refuses is still refused, unless it
    was refused because bytes are missing. This holds of the three root readers, and of the packet field. What
    the field returns are the bytes that it is written as, and its errors are those of the document. -/
theorem verdicts_final (t : Target) (src more : Bytes) (hfits : (src ++ more).length ≤ t.usizeMax) :
    Exec.Decided (readNetworkRoot t) NbtError.Truncated src more ∧
    Exec.Decided (readNamedRoot t) NbtError.Truncated src more ∧
    Exec.Decided (readOptionalNetworkRoot t) NbtError.Truncated src more ∧
    (readNbt t src).Satisfies
      (fun d rest => (∃ p, (writeNbt d).Writes p () ∧ p ++ rest = src) ∧
        readNbt t (src ++ more) = .ok d (rest ++ more))
      (fun e _ => ∃ error, e = .nbt error ∧
        (error.Truncated ∨ ∀ d rest, readNbt t (src ++ more) ≠ .ok d rest)) := by
  have hnetwork := decided_networkRoot hfits
  refine ⟨hnetwork, decided_namedRoot hfits, decided_optionalNetworkRoot hfits, ?_⟩
  unfold Exec.Decided at hnetwork
  refine Exec.mapError_spec ?_
  cases hread : readNetworkRoot t src with
  | ok d rest =>
      rw [hread] at hnetwork
      obtain ⟨p, hp, hsrc⟩ := readNetworkRoot_bytes hread
      exact ⟨⟨p, writes_nbt.mpr hp, hsrc⟩, readNbt_eq_ok.mpr hnetwork⟩
  | error e left =>
      rw [hread] at hnetwork
      refine ⟨e, rfl, hnetwork.imp_right fun hrefused d rest hok => ?_⟩
      exact hrefused d rest (readNbt_eq_ok.mp hok)
  | panic =>
      rw [hread] at hnetwork
      exact hnetwork
  | diverge =>
      rw [hread] at hnetwork
      exact hnetwork

/-- A document with one byte behind it, and then with two. -/
theorem verdicts_final_sample :
    readNetworkRoot .bits64 (sampleBytes ++ [255] ++ [254]) = .ok sample ([255] ++ [254]) := by
  have hdecided := (verdicts_final .bits64 (sampleBytes ++ [255]) [254] (by decide)).1
  unfold Exec.Decided at hdecided
  rw [readNetworkRoot_sample] at hdecided
  exact hdecided

end Pyrite.Protocol
