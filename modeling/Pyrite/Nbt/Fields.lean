import Pyrite.Nbt.Read
import Pyrite.Nbt.Write

set_option autoImplicit false

/-! # The field codecs, in both directions

For each field reader two facts. The `_spec` lemma starts from arbitrary bytes: the reader never
panics, and what it accepts is exactly what the writer would have written, followed by what is left
unread. The `_append` lemma starts from written bytes: the reader returns the value and leaves the rest
alone.

The last section settles the duplicate-name scan: sorting and comparing neighbours rejects a compound
exactly when a name occurs twice. -/

namespace Pyrite.Nbt

open Wire

variable {σ : Type}

/-! ## What the writers write -/

@[simp] theorem writes_nbtString {value : String} {bs : Bytes} {u : Unit} :
    (writeNbtString value).Writes bs u ↔ (utf8 value).length < 65536 ∧
      bs = wordBytes (UInt16.ofNat (utf8 value).length) ++ utf8 value := by
  unfold writeNbtString
  by_cases hlen : (utf8 value).length < 65536
  · simp [hlen]
  · simp [hlen]

@[simp] theorem arrayLen_eq_ok {len : Nat} {n : Int32} :
    arrayLen len = .ok n ↔ len < 2147483648 ∧ n = Int32.ofNat len := by
  unfold arrayLen
  split <;> simp_all [eq_comm]

@[simp] theorem writes_words {α : Type} [Word α] {values : List α} {bs : Bytes} {u : Unit} :
    (writeWords values).Writes bs u ↔ bs = values.flatMap wordBytes := by
  induction values generalizing bs with
  | nil => simp [writeWords]
  | cons value values ih => simp [writeWords, ih]

/-! ## Type bytes -/

theorem readTagId_spec (src : Bytes) :
    (readTagId src).Satisfies (fun id src' => src = id.toU8 :: src') (fun _ _ => True) := by
  cases src with
  | nil => simp [readTagId]
  | cons b rest =>
      cases hid : TagId.tryFrom b with
      | ok id => simp [readTagId, hid, TagId.toU8_of_tryFrom hid]
      | error e => simp [readTagId, hid]

theorem readTagId_append (id : TagId) (rest : Bytes) :
    readTagId (id.toU8 :: rest) = .ok id rest := by
  simp [readTagId]

/-! ## Strings -/

theorem readNbtString_spec (src : Bytes) :
    (readNbtString src).Satisfies
      (fun value src' => ∃ bs, (writeNbtString value).Writes bs () ∧ src = bs ++ src')
      (fun _ _ => True) := by
  unfold readNbtString
  simp only [Exec.bind_apply, Exec.remaining_apply, Outcome.bind_ok, Exec.ite_apply]
  by_cases hshort : src.length < 2
  · rw [if_pos hshort]
    trivial
  rw [if_neg hshort]
  refine (Exec.get_spec (Nat.not_lt.mp hshort)).bind fun prefixLen src₁ hsrc₁ => ?_
  simp only [Exec.bind_apply, Exec.remaining_apply, Outcome.bind_ok, Exec.ite_apply]
  by_cases hlen : src₁.length < prefixLen.toNat
  · simp [hlen]
  rw [if_neg hlen]
  refine (Exec.take_spec (Nat.not_lt.mp hlen)).bind fun bytes src₂ hbytes => ?_
  cases hvalue : fromUtf8 bytes with
  | none => simp
  | some value =>
      obtain ⟨hsrc₂, hbytes⟩ := hbytes
      rw [fromUtf8_eq_some] at hvalue
      have hpre : UInt16.ofNat (utf8 value).length = prefixLen := by
        rw [hvalue, hbytes, UInt16.ofNat_toNat]
      refine ⟨_, writes_nbtString.mpr ⟨?_, rfl⟩, ?_⟩
      · rw [hvalue, hbytes]
        exact prefixLen.toNat_lt
      · rw [hpre, hvalue, List.append_assoc, ← hsrc₂, ← hsrc₁]

theorem readNbtString_append {value : String} {bs : Bytes}
    (h : (writeNbtString value).Writes bs ()) (rest : Bytes) :
    readNbtString (bs ++ rest) = .ok value rest := by
  obtain ⟨hlen, rfl⟩ := writes_nbtString.mp h
  have hget := Exec.get_append (ε := NbtError) (UInt16.ofNat (utf8 value).length) (utf8 value ++ rest)
  have hlong : ¬ (wordBytes (UInt16.ofNat (utf8 value).length) ++ (utf8 value ++ rest)).length < 2 := by
    simp [Word.size]
    omega
  have hpre : (UInt16.ofNat (utf8 value).length).toNat = (utf8 value).length := by
    rw [UInt16.toNat_ofNat', Nat.mod_eq_of_lt hlen]
  have htake := Exec.take_append (ε := NbtError) (utf8 value) rest
  rw [List.append_assoc, readNbtString]
  simp only [Exec.bind_apply, Exec.remaining_apply, Outcome.bind_ok, Exec.ite_apply, if_neg hlong,
    hget, hpre, htake, fromUtf8_utf8]
  simp

/-! ## Lengths -/

theorem readLength_spec (t : Target) (minSize : Nat) (src : Bytes) :
    (readLength t minSize src).Satisfies
      (fun len src' => len < 2147483648 ∧ src = wordBytes (Int32.ofNat len) ++ src' ∧
        len * minSize ≤ src'.length)
      (fun _ _ => True) := by
  unfold readLength
  simp only [Exec.bind_apply, Exec.remaining_apply, Outcome.bind_ok, Exec.ite_apply]
  by_cases hshort : src.length < 4
  · rw [if_pos hshort]
    trivial
  rw [if_neg hshort]
  refine (Exec.get_spec (Nat.not_lt.mp hshort)).bind fun declared src₁ hsrc₁ => ?_
  simp only [Exec.bind_apply, Exec.remaining_apply, Outcome.bind_ok, Target.tryFromInt32]
  by_cases hneg : declared.toInt < 0
  · simp [hneg]
  have hnonneg : 0 ≤ declared.toInt := Int.not_lt.mp hneg
  have hlt := declared.toInt_lt
  simp only [hneg, if_false, Target.checkedMul]
  by_cases hmul : declared.toInt.toNat * minSize ≤ t.usizeMax
  · simp only [hmul, if_true, Exec.ite_apply]
    by_cases hfits : declared.toInt.toNat * minSize > src₁.length
    · rw [if_pos hfits]
      trivial
    · rw [if_neg hfits]
      refine ⟨by omega, ?_, Nat.not_lt.mp hfits⟩
      rw [int32_ofNat_toNat hnonneg, hsrc₁]
  · rw [if_neg hmul]
    trivial

theorem readLength_of_get {t : Target} {minSize len : Nat} {declared : Int32} {src rest : Bytes}
    (hlong : ¬ src.length < 4) (hget : (Exec.get : Exec NbtError Bytes Int32) src = .ok declared rest)
    (htry : Target.tryFromInt32 declared = some len)
    (hmul : t.checkedMul len minSize = some (len * minSize))
    (hfits : ¬ len * minSize > rest.length) : readLength t minSize src = .ok len rest := by
  rw [readLength]
  simp only [Exec.bind_apply, Exec.remaining_apply, Outcome.bind_ok, Exec.ite_apply, if_neg hlong,
    hget, htry, hmul, if_neg hfits, Exec.pure_apply]

/-- A count that fits is accepted. The product cannot overflow `usize`, because the bytes it counts
    are there. -/
theorem readLength_append (t : Target) {minSize len : Nat} {p rest : Bytes} (hlen : len < 2147483648)
    (hfits : len * minSize ≤ p.length) (hmax : p.length + rest.length ≤ t.usizeMax) :
    readLength t minSize (wordBytes (Int32.ofNat len) ++ (p ++ rest)) = .ok len (p ++ rest) := by
  refine readLength_of_get ?_ (Exec.get_append (Int32.ofNat len) (p ++ rest)) ?_ ?_ ?_
  · simp [Word.size]
  · simp [Target.tryFromInt32, int32_ofNat_toInt hlen]
  · rw [Target.checkedMul, if_pos (by omega)]
  · rw [List.length_append]
    omega

/-! ## Numbers -/

theorem fixed_spec {α : Type} [Word α] {size : Nat} (hsize : Word.size α = size)
    (variant : α → NbtTag) (src : Bytes) :
    (fixed size variant src).Satisfies
      (fun tag src' => ∃ value, tag = variant value ∧ src = wordBytes value ++ src')
      (fun _ _ => True) := by
  unfold fixed
  simp only [Exec.bind_apply, Exec.remaining_apply, Outcome.bind_ok, Exec.ite_apply]
  by_cases hshort : src.length < size
  · rw [if_pos hshort]
    trivial
  rw [if_neg hshort]
  refine (Exec.get_spec (hsize ▸ Nat.not_lt.mp hshort)).bind fun value src' hsrc' => ?_
  exact ⟨value, rfl, hsrc'⟩

theorem fixed_append {α : Type} [Word α] {size : Nat} (hsize : Word.size α = size)
    (variant : α → NbtTag) (value : α) (rest : Bytes) :
    fixed size variant (wordBytes value ++ rest) = .ok (variant value) rest := by
  have hget := Exec.get_append (ε := NbtError) value rest
  have hlong : ¬ (wordBytes value ++ rest).length < size := by
    simp [hsize]
  simp only [fixed, Exec.bind_apply, Exec.remaining_apply, Outcome.bind_ok, Exec.ite_apply,
    if_neg hlong, hget, Exec.pure_apply]

/-- The bytes of an integer array hold as many words as the length check has made sure of. -/
theorem times_get_spec {α : Type} [Word α] (n : Nat) (src : Bytes)
    (h : n * Word.size α ≤ src.length) :
    (Exec.times (Exec.get : Exec NbtError Bytes α) n src).Satisfies
      (fun values src' => values.length = n ∧ src = values.flatMap wordBytes ++ src')
      (fun _ _ => True) := by
  induction n generalizing src with
  | zero => simp [Exec.times]
  | succ n ih =>
      have hlen : (n + 1) * Word.size α = n * Word.size α + Word.size α := Nat.succ_mul _ _
      refine (Exec.get_spec (by omega)).bind fun value src₁ hsrc₁ => ?_
      have hsrc : src.length = Word.size α + src₁.length := by simp [hsrc₁]
      refine (ih src₁ (by omega)).bind fun values src₂ hvalues => ?_
      simp [hvalues.1, hsrc₁, hvalues.2]

theorem times_get_append {α : Type} [Word α] (values : List α) (rest : Bytes) :
    Exec.times (Exec.get : Exec NbtError Bytes α) values.length (values.flatMap wordBytes ++ rest)
      = .ok values rest := by
  induction values with
  | nil => simp [Exec.times]
  | cons value values ih =>
      have hget := Exec.get_append (ε := NbtError) value (values.flatMap wordBytes ++ rest)
      simp [Exec.times, hget, ih]

/-! ## Duplicate names -/

/-- The scan stops at the first two equal neighbours. -/
theorem rejectEqualPairs_spec (names : List String) (s : σ) :
    (rejectEqualPairs (windows2 names) s).Satisfies
      (fun _ s' => s' = s ∧ names.IsChain (· ≠ ·))
      (fun e s' => s' = s ∧ ∃ name, e = .duplicateKey name ∧ [name, name] <:+: names) := by
  induction names with
  | nil => simp [windows2, rejectEqualPairs]
  | cons a rest ih =>
      cases rest with
      | nil => simp [windows2, rejectEqualPairs]
      | cons b rest =>
          simp only [windows2, rejectEqualPairs, Exec.index, List.getElem?_cons_zero,
            List.getElem?_cons_succ, Exec.bind_apply, Exec.pure_apply, Outcome.bind_ok, Exec.ite_apply]
          by_cases hab : a = b
          · subst hab
            rw [if_pos rfl]
            exact ⟨rfl, a, rfl, [], rest, rfl⟩
          · rw [if_neg hab]
            refine ih.mono (fun _ s' h => ⟨h.1, List.isChain_cons_cons.mpr ⟨hab, h.2⟩⟩) ?_
            intro e s' hpost
            obtain ⟨rfl, name, rfl, hpair⟩ := hpost
            exact ⟨rfl, name, rfl, hpair.trans (List.suffix_cons a (b :: rest)).isInfix⟩

theorem utf8_injective {a b : String} (h : utf8 a = utf8 b) : a = b := by
  have ha := fromUtf8_utf8 a
  rw [h, fromUtf8_utf8] at ha
  exact (Option.some.inj ha).symm

/-- In sorted order equal elements are neighbours, so a list without equal neighbours has no equal
    elements at all. -/
theorem nodup_of_pairwise_of_isChain {α : Type} {r : α → α → Prop}
    (antisymm : ∀ a b, r a b → r b a → a = b) {l : List α} (hsorted : l.Pairwise r)
    (hchain : l.IsChain (· ≠ ·)) : l.Nodup := by
  induction l with
  | nil => exact List.nodup_nil
  | cons a l ih =>
      obtain ⟨hfirst, hrest⟩ := List.pairwise_cons.mp hsorted
      refine List.nodup_cons.mpr ⟨?_, ih hrest hchain.tail⟩
      cases l with
      | nil => simp
      | cons b l =>
          have hab : a ≠ b := (List.isChain_cons_cons.mp hchain).1
          intro hmem
          rcases List.mem_cons.mp hmem with rfl | hmem
          · exact hab rfl
          · have hba := (List.pairwise_cons.mp hrest).1 a hmem
            exact hab (antisymm a b (hfirst b (List.mem_cons_self ..)) hba)

/-- However the names have been sorted, the scan passes them exactly when they are distinct, and a name it
    reports has a second occurrence. -/
theorem rejectSorted_spec {names sorted : List String} (hperm : sorted.Perm names)
    (hsorted : sorted.Pairwise fun a b => strLe a b = true) (s : σ) :
    (rejectEqualPairs (windows2 sorted) s).Satisfies
      (fun _ s' => s' = s ∧ names.Nodup)
      (fun e s' => s' = s ∧ ∃ name, e = .duplicateKey name ∧ 2 ≤ names.count name) := by
  refine (rejectEqualPairs_spec sorted s).mono (fun _ s' hpost => ⟨hpost.1, ?_⟩) fun e s' hpost => ?_
  · refine hperm.nodup_iff.mp (nodup_of_pairwise_of_isChain (fun a b hab hba => ?_) hsorted hpost.2)
    simp only [strLe, decide_eq_true_eq] at hab hba
    exact utf8_injective (List.le_antisymm hab hba)
  · obtain ⟨rfl, name, rfl, hpair⟩ := hpost
    refine ⟨rfl, name, rfl, ?_⟩
    rw [← hperm.count_eq]
    exact List.duplicate_iff_two_le_count.mp (List.duplicate_iff_sublist.mpr hpair.sublist)

theorem pairwise_mergeSort_strLe (names : List String) :
    (names.mergeSort strLe).Pairwise fun a b => strLe a b = true := by
  apply List.pairwise_mergeSort
  · intro a b c hab hbc
    simp only [strLe, decide_eq_true_eq] at *
    exact List.le_trans hab hbc
  · intro a b
    simp only [strLe, Bool.or_eq_true, decide_eq_true_eq]
    exact List.le_total _ _

/-- The scan of the finished compound: it passes exactly the compounds whose names are distinct. -/
theorem rejectDuplicateKeys_spec (compound : NbtCompound) (s : σ) :
    (rejectDuplicateKeys compound s).Satisfies
      (fun _ s' => s' = s ∧ compound.names.Nodup)
      (fun e s' => s' = s ∧ ∃ name, e = .duplicateKey name ∧ 2 ≤ compound.names.count name) := by
  unfold rejectDuplicateKeys
  by_cases hlen : compound.len < 2
  · have hnodup : compound.names.Nodup := by
      obtain ⟨entries⟩ := compound
      match entries, hlen with
      | [], _ => simp [NbtCompound.names]
      | [e], _ => simp [NbtCompound.names]
    simp only [if_pos hlen]
    exact ⟨rfl, hnodup⟩
  · simp only [if_neg hlen]
    exact rejectSorted_spec (List.mergeSort_perm _ _) (pairwise_mergeSort_strLe _) s

/-- A scan with the outcomes of the two lemmas above goes by whether the names are distinct. -/
theorem scan_eq_of_satisfies {m : Exec NbtError σ Unit} {names : List String} {s : σ}
    (h : (m s).Satisfies (fun _ s' => s' = s ∧ names.Nodup)
      (fun e s' => s' = s ∧ ∃ name, e = .duplicateKey name ∧ 2 ≤ names.count name)) :
    (names.Nodup → m s = .ok () s) ∧
      (¬ names.Nodup → ∃ name, 2 ≤ names.count name ∧ m s = .error (.duplicateKey name) s) := by
  rcases h.exists with ⟨_, s', heq⟩ | ⟨e, s', heq⟩
  · rw [heq] at h
    obtain ⟨rfl, hnodup⟩ := h
    exact ⟨fun _ => heq, fun hnot => absurd hnodup hnot⟩
  · rw [heq] at h
    obtain ⟨rfl, name, rfl, hcount⟩ := h
    have hnot : ¬ names.Nodup := (List.duplicate_iff_two_le_count.mpr hcount).not_nodup
    exact ⟨fun hnodup => absurd hnodup hnot, fun _ => ⟨name, hcount, heq⟩⟩

theorem rejectDuplicateKeys_of_nodup {compound : NbtCompound} (h : compound.names.Nodup) (s : σ) :
    rejectDuplicateKeys compound s = .ok () s :=
  (scan_eq_of_satisfies (rejectDuplicateKeys_spec compound s)).1 h

end Pyrite.Nbt
