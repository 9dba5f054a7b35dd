import Pyrite.Nbt.Truncation
import Pyrite.Wire.Assoc

set_option autoImplicit false

/-! # Compounds as insertion-ordered maps

`NbtCompound::insert` is `Wire.put` on the entries, so that a compound built by any sequence of inserts
represents the history of those inserts: `iter`, `len` and `get` can be read off the history alone.

The decoder uses `push` and one scan at the end instead. That it nevertheless returns what inserting entry by
entry would give is said over `EntriesParse`, the entries on the wire up to their `End`. -/

namespace Pyrite.Nbt

open Wire

/-! ## A history of inserts -/

/-- A name that is not there yet is appended, as `push` does it. -/
theorem NbtCompound.insert_eq_push {c : NbtCompound} {name : String} (h : name ∉ c.names) (value : NbtTag) :
    c.insert name value = c.push name value := by
  rw [NbtCompound.insert_eq, put_of_not_mem h]
  rfl

theorem NbtCompound.ofPairs_concat (inserts : List (String × NbtTag)) (name : String) (value : NbtTag) :
    ofPairs (inserts ++ [(name, value)]) = (ofPairs inserts).insert name value := by
  rw [ofPairs, List.foldl_append]
  rfl

theorem NbtCompound.ofPairs_represents (inserts : List (String × NbtTag)) :
    Represents inserts (ofPairs inserts).entries := by
  induction inserts using List.reverseRecOn with
  | nil => exact represents_nil
  | append_singleton inserts insertion ih =>
      obtain ⟨name, value⟩ := insertion
      rw [ofPairs_concat, insert_eq]
      exact ih.put_concat name value

/-- Inserting distinct names one by one is the same as pushing them. -/
theorem NbtCompound.ofPairs_of_nodup {inserts : List (String × NbtTag)} (h : (keysOf inserts).Nodup) :
    ofPairs inserts = ⟨inserts⟩ := by
  induction inserts using List.reverseRecOn with
  | nil => rfl
  | append_singleton inserts insertion ih =>
      obtain ⟨name, value⟩ := insertion
      rw [keysOf_append, List.nodup_append'] at h
      obtain ⟨hinserts, -, hdisjoint⟩ := h
      have hfresh : name ∉ (ofPairs inserts).names := by
        rw [ih hinserts]
        exact fun hmem => hdisjoint hmem (List.mem_singleton_self name)
      rw [ofPairs_concat, insert_eq_push hfresh, ih hinserts]
      rfl

/-- **A compound is an insertion-ordered map.** After any sequence of inserts, `iter` yields the inserted
    names once each, ordered by their first insertion and with the value of their last one. -/
theorem compound_is_ordered_map (inserts : List (String × NbtTag)) :
    let compound := inserts.foldl (fun c pair => c.insert pair.1 pair.2) NbtCompound.new
    let inserted := inserts.map Prod.fst
    let yielded := compound.iter.map Prod.fst
    (yielded.Nodup ∧
      (∀ name, name ∈ yielded ↔ name ∈ inserted) ∧
      (yielded.Pairwise fun a b => inserted.idxOf a < inserted.idxOf b) ∧
      (∀ name value, (name, value) ∈ compound.iter ↔ lastValue inserts name = some value)) ∧
    compound.len = inserted.toFinset.card ∧
    (∀ name, compound.get name = lastValue inserts name) ∧
    ∀ name, compound.get name = none ↔ name ∉ inserted := by
  have hrep := NbtCompound.ofPairs_represents inserts
  have hget : ∀ name, (NbtCompound.ofPairs inserts).get name = lastValue inserts name := hrep.find?_eq
  refine ⟨⟨hrep.nodup, hrep.keys, hrep.order, hrep.values⟩, hrep.length_eq, hget, fun name => ?_⟩
  show (NbtCompound.ofPairs inserts).get name = none ↔ name ∉ keysOf inserts
  rw [hget, lastValue_eq_none_iff]

example :
    let inserts := [("zebra", NbtTag.byte 1), ("apple", .byte 2), ("zebra", .byte 3)]
    (NbtCompound.ofPairs inserts).names = ["zebra", "apple"] ∧
      lastValue inserts "zebra" = some (.byte 3) :=
  ⟨rfl, rfl⟩

/-! ## Linear decoding -/

/-- The entries that the readers find from one state on, up to and including the terminating `End`. -/
inductive EntriesParse (t : Target) (depth : Nat) :
    ReadState → List (String × NbtTag) → ReadState → Prop
  | done {s s' : ReadState} (htag : onSrc readTagId s = .ok .endTag s') : EntriesParse t depth s [] s'
  | entry {s s₁ s₂ s₃ s' : ReadState} {id : TagId} {name : String} {value : NbtTag}
      {entries : List (String × NbtTag)}
      (htag : onSrc readTagId s = .ok id s₁) (hid : id ≠ .endTag)
      (hname : onSrc readNbtString s₁ = .ok name s₂)
      (hvalue : readPayload t id depth s₂ = .ok value s₃)
      (hrest : EntriesParse t depth s₃ entries s') : EntriesParse t depth s ((name, value) :: entries) s'

/-- The loop over entries that parse ends at their `End`, in the scan of everything pushed. -/
theorem entryLoop_eq {t : Target} {depth : Nat} {s s' : ReadState} {entries : List (String × NbtTag)}
    (h : EntriesParse t depth s entries s') (pushed : List (String × NbtTag)) :
    Exec.loop (fun s => s.src.length) (readEntry fun id => readPayload t id depth) ⟨pushed⟩ s =
      (rejectDuplicateKeys (⟨pushed ++ entries⟩ : NbtCompound) s').bind fun _ => pure ⟨pushed ++ entries⟩ := by
  induction h generalizing pushed with
  | done htag =>
      rw [Exec.loop_eq _ (readEntry_decreases t depth), List.append_nil]
      simp only [readEntry, Exec.bind_apply, htag, Outcome.bind_ok, if_true]
      cases rejectDuplicateKeys (⟨pushed⟩ : NbtCompound) _ <;> rfl
  | entry htag hid hname hvalue _ ih =>
      rw [Exec.loop_eq _ (readEntry_decreases t depth)]
      simp only [readEntry, Exec.bind_apply, htag, hname, hvalue, Outcome.bind_ok, Exec.ite_apply, if_neg hid,
        Exec.pure_apply, Sum.elim_inl]
      rw [NbtCompound.push, ih, List.append_assoc, List.singleton_append]

theorem readEntry_parses (t : Target) (depth : Nat) (c : NbtCompound) (s : ReadState) :
    (readEntry (fun id => readPayload t id depth) c s).Respects
      (fun r s' => r.elim
        (fun c' => ∃ name value, c' = c.push name value ∧ ∀ entries s'',
          EntriesParse t depth s' entries s'' → EntriesParse t depth s ((name, value) :: entries) s'')
        (fun c' => c' = c ∧ EntriesParse t depth s [] s'))
      (fun _ _ => True) := by
  refine (Outcome.respects_of_ok fun _ _ htag => htag).bind fun id s₁ htag => ?_
  rw [Exec.ite_apply]
  split_ifs with hid
  · subst hid
    refine ((rejectDuplicateKeys_spec c s₁).seq (fun _ _ _ => trivial) fun _ s₂ hscan => ?_).respects
    obtain ⟨rfl, -⟩ := hscan
    exact ⟨rfl, .done htag⟩
  · refine (Outcome.respects_of_ok fun _ _ hname => hname).bind fun name s₂ hname => ?_
    refine (Outcome.respects_of_ok fun _ _ hvalue => hvalue).bind fun value s₃ hvalue => ?_
    exact ⟨name, value, rfl, fun entries s'' => .entry htag hid hname hvalue⟩

/-- Every compound that the loop returns is made of entries that parse. -/
theorem entryLoop_parses (t : Target) (depth : Nat) (fuel : Nat) (pushed : List (String × NbtTag))
    (s : ReadState) :
    (Exec.iterate (readEntry fun id => readPayload t id depth) fuel ⟨pushed⟩ s).Respects
      (fun c s' => ∃ entries, c = ⟨pushed ++ entries⟩ ∧ EntriesParse t depth s entries s')
      (fun _ _ => True) := by
  induction fuel generalizing pushed s with
  | zero => trivial
  | succ fuel ih =>
      refine (readEntry_parses t depth ⟨pushed⟩ s).bind fun r s₁ hround => ?_
      cases r with
      | inl c =>
          obtain ⟨name, value, rfl, hparse⟩ := hround
          refine (ih (pushed ++ [(name, value)]) s₁).mono (fun c' s' hrest => ?_) fun _ _ _ => trivial
          obtain ⟨entries, rfl, hentries⟩ := hrest
          exact ⟨(name, value) :: entries, by rw [List.append_assoc, List.singleton_append],
            hparse entries s' hentries⟩
      | inr c =>
          obtain ⟨rfl, hparse⟩ := hround
          exact ⟨[], by rw [List.append_nil], hparse⟩

theorem readCompoundBody_parses {t : Target} {depth : Nat} {s s' : ReadState} {c : NbtCompound}
    (h : readCompoundBody t depth s = .ok c s') :
    depth ≤ maxDepth ∧ EntriesParse t depth s c.entries s' := by
  rw [readCompoundBody] at h
  split_ifs at h with hdepth
  · cases h
  · have hloop := entryLoop_parses t depth (s.src.length + 1) [] s
    rw [Exec.loop] at h
    rw [NbtCompound.new] at h
    rw [h] at hloop
    obtain ⟨entries, rfl, hparse⟩ := hloop
    exact ⟨Nat.not_lt.mp hdepth, hparse⟩

theorem readCompoundBody_eq {t : Target} {depth : Nat} (hdepth : depth ≤ maxDepth) {s s' : ReadState}
    {entries : List (String × NbtTag)} (h : EntriesParse t depth s entries s') :
    readCompoundBody t depth s =
      (rejectDuplicateKeys (⟨entries⟩ : NbtCompound) s').bind fun _ => pure ⟨entries⟩ := by
  rw [readCompoundBody, if_neg (Nat.not_lt.mpr hdepth)]
  exact entryLoop_eq h []

/-- **Linear decoding refines inserting entry by entry.** Names that are distinct give the compound that
    inserting them in wire order gives, a name that occurs twice is reported as a duplicate; nothing but
    entries that parse is ever returned; and the scan decides between the two whichever way the names have
    been sorted. -/
theorem linear_decoding_refines_inserts (t : Target) :
    (∀ (depth : Nat) (s s' : ReadState) (entries : List (String × NbtTag)),
      depth ≤ maxDepth → EntriesParse t depth s entries s' →
      ((entries.map Prod.fst).Nodup → readCompoundBody t depth s =
        .ok (entries.foldl (fun c pair => c.insert pair.1 pair.2) NbtCompound.new) s') ∧
      (¬ (entries.map Prod.fst).Nodup → ∃ name, 2 ≤ (entries.map Prod.fst).count name ∧
        readCompoundBody t depth s = .error (.duplicateKey name) s')) ∧
    (∀ (depth : Nat) (s s' : ReadState) (compound : NbtCompound),
      readCompoundBody t depth s = .ok compound s' →
      depth ≤ maxDepth ∧ EntriesParse t depth s compound.entries s') ∧
    (∀ (compound : NbtCompound) (s : ReadState),
      (compound.names.Nodup → rejectDuplicateKeys compound s = .ok () s) ∧
      (¬ compound.names.Nodup → ∃ name, 2 ≤ compound.names.count name ∧
        rejectDuplicateKeys compound s = .error (.duplicateKey name) s)) ∧
    ∀ (names sorted : List String) (s : ReadState),
      sorted.Perm names → (sorted.Pairwise fun a b => strLe a b = true) →
      (names.Nodup → rejectEqualPairs (windows2 sorted) s = .ok () s) ∧
      (¬ names.Nodup → ∃ name, 2 ≤ names.count name ∧
        rejectEqualPairs (windows2 sorted) s = .error (.duplicateKey name) s) := by
  refine ⟨fun depth s s' entries hdepth hparse => ?_, fun depth s s' compound => readCompoundBody_parses,
    fun compound s => scan_eq_of_satisfies (rejectDuplicateKeys_spec compound s),
    fun names sorted s hperm hsorted => scan_eq_of_satisfies (rejectSorted_spec hperm hsorted s)⟩
  obtain ⟨hpass, hreject⟩ := scan_eq_of_satisfies (rejectDuplicateKeys_spec (⟨entries⟩ : NbtCompound) s')
  rw [readCompoundBody_eq hdepth hparse]
  refine ⟨fun hnodup => ?_, fun hdup => ?_⟩
  · have hinserts : entries.foldl (fun c pair => c.insert pair.1 pair.2) NbtCompound.new = ⟨entries⟩ :=
      NbtCompound.ofPairs_of_nodup hnodup
    rw [hpass hnodup, hinserts]
    rfl
  · obtain ⟨name, hcount, herror⟩ := hreject hdup
    exact ⟨name, hcount, by rw [herror, Outcome.bind_error]⟩

/-- Two entries called `a` on the wire, and their `End`. -/
theorem linear_decoding_refines_inserts_twice :
    ∃ name, 2 ≤ ["a", "a"].count name ∧
      readCompoundBody .bits64 1 ⟨[1, 0, 1, 97, 7, 1, 0, 1, 97, 8, 0], 0⟩ =
        .error (.duplicateKey name) ⟨[], 2⟩ := by
  have hname : onSrc readNbtString ⟨[0, 1, 97, 7, 1, 0, 1, 97, 8, 0], 0⟩ =
      .ok "a" ⟨[7, 1, 0, 1, 97, 8, 0], 0⟩ := rfl
  have hvalue : readPayload .bits64 .byte 1 ⟨[7, 1, 0, 1, 97, 8, 0], 0⟩ =
      .ok (.byte 7) ⟨[1, 0, 1, 97, 8, 0], 1⟩ := by
    rw [readPayload]
    rfl
  have hname' : onSrc readNbtString ⟨[0, 1, 97, 8, 0], 1⟩ = .ok "a" ⟨[8, 0], 1⟩ := rfl
  have hvalue' : readPayload .bits64 .byte 1 ⟨[8, 0], 1⟩ = .ok (.byte 8) ⟨[0], 2⟩ := by
    rw [readPayload]
    rfl
  have hparse : EntriesParse .bits64 1 ⟨[1, 0, 1, 97, 7, 1, 0, 1, 97, 8, 0], 0⟩
      [("a", .byte 7), ("a", .byte 8)] ⟨[], 2⟩ :=
    .entry rfl (by decide) hname hvalue (.entry rfl (by decide) hname' hvalue' (.done rfl))
  exact ((linear_decoding_refines_inserts .bits64).1 1 _ _ _ (by decide) hparse).2 (by decide)

end Pyrite.Nbt
