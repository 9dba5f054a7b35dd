import Pyrite.Nbt.Canonical

set_option autoImplicit false

/-! # What the writer accepts

The writer carries a depth through two mutually recursive functions that increment and check it in
different places. Here its limits are put in terms of the document alone: `Placed` gives every tag of a
document its nesting level, `WithinLimits` says what a tag may be at its level, and a document is
written exactly if every tag in it is within its limits (`write_succeeds_iff`). -/

namespace Pyrite.Nbt

open Wire

/-! ## Levels -/

/-- `Placed root tag n`: `tag` occurs in `root`, at level `n`. The root is at level 1, and everything
    else one level below the compound or list that directly holds it. -/
inductive Placed (root : NbtTag) : NbtTag → Nat → Prop where
  | root : Placed root root 1
  | child {tag child : NbtTag} {n : Nat} (h : Placed root tag n) (hchild : child ∈ tag.children) :
      Placed root child (n + 1)

/-- The places below a tag are the places below its children, one level deeper. -/
theorem placed_iff {root sub : NbtTag} {n : Nat} :
    Placed root sub n ↔
      (sub = root ∧ n = 1) ∨ ∃ child ∈ root.children, ∃ m, Placed child sub m ∧ n = m + 1 := by
  constructor
  · intro h
    induction h with
    | root => exact Or.inl ⟨rfl, rfl⟩
    | @child tag child n _ hchild ih =>
        rcases ih with ⟨rfl, rfl⟩ | ⟨top, htop, m, hm, rfl⟩
        · exact Or.inr ⟨child, hchild, 1, .root, rfl⟩
        · exact Or.inr ⟨top, htop, m + 1, .child hm hchild, rfl⟩
  · intro h
    rcases h with ⟨rfl, rfl⟩ | ⟨top, htop, m, hm, rfl⟩
    · exact .root
    · induction hm with
      | root => exact .child .root htop
      | child _ hchild ih => exact .child ih hchild

/-- The limits on a tag at level `n`. An empty list is not bound by the depth limit: only its elements
    would be. -/
def WithinLimits (n : Nat) : NbtTag → Prop
  | .compound c => n ≤ maxDepth ∧ ∀ name ∈ c.names, (utf8 name).length ≤ 65535
  | .list l => (l.items ≠ [] → n ≤ maxDepth) ∧ l.items.length ≤ 2147483647
  | .string value => (utf8 value).length ≤ 65535
  | .byteArray value => value.length ≤ 2147483647
  | .intArray values => values.length ≤ 2147483647
  | .longArray values => values.length ≤ 2147483647
  | _ => True

/-- Everything in `tag` is within its limits, when the holder of `tag` is at level `depth`. -/
def AllWithin (tag : NbtTag) (depth : Nat) : Prop :=
  ∀ sub n, Placed tag sub n → WithinLimits (depth + n) sub

theorem allWithin_iff {tag : NbtTag} {depth : Nat} :
    AllWithin tag depth ↔
      WithinLimits (depth + 1) tag ∧ ∀ child ∈ tag.children, AllWithin child (depth + 1) := by
  constructor
  · intro h
    refine ⟨h tag 1 .root, ?_⟩
    intro child hchild sub m hm
    have hsub := h sub (m + 1) (placed_iff.mpr (Or.inr ⟨child, hchild, m, hm, rfl⟩))
    rwa [Nat.add_right_comm, Nat.add_assoc]
  · intro h sub n hn
    rcases placed_iff.mp hn with ⟨rfl, rfl⟩ | ⟨child, hchild, m, hm, rfl⟩
    · exact h.1
    · have hsub := h.2 child hchild sub m hm
      rwa [Nat.add_right_comm, Nat.add_assoc] at hsub

/-! ## Success of the writers -/

/-- The writer ends without an error. -/
def Succeeds (x : Put NbtError Unit) : Prop := ∃ bs, x.Writes bs ()

theorem succeeds_iff {x : Put NbtError Unit} : Succeeds x ↔ x.result = .ok () := by
  constructor
  · intro h
    obtain ⟨bs, -, hresult⟩ := h
    exact hresult
  · intro h
    exact ⟨x.bytes, rfl, h⟩

theorem succeeds_nbtString {value : String} :
    Succeeds (writeNbtString value) ↔ (utf8 value).length ≤ 65535 := by
  simp only [Succeeds, writes_nbtString, exists_and_left, exists_eq, and_true]
  exact Nat.lt_succ_iff

theorem succeeds_items {items : List NbtTag} {depth : Nat} :
    Succeeds (writeItems items depth) ↔ ∀ item ∈ items, Succeeds (writePayload item depth) := by
  induction items with
  | nil => simp [Succeeds, writeItems]
  | cons item rest ih =>
      simp only [List.mem_cons, forall_eq_or_imp, ← ih]
      constructor
      · intro h
        obtain ⟨bs, hbs⟩ := h
        obtain ⟨p, q, hp, hq, -⟩ := writes_items_cons.mp hbs
        exact ⟨⟨p, hp⟩, ⟨q, hq⟩⟩
      · intro h
        obtain ⟨⟨p, hp⟩, ⟨q, hq⟩⟩ := h
        exact ⟨p ++ q, writes_items_cons.mpr ⟨p, q, hp, hq, rfl⟩⟩

theorem succeeds_entries {entries : List (String × NbtTag)} {depth : Nat} :
    Succeeds (writeEntries entries depth) ↔
      (∀ name ∈ entries.map Prod.fst, (utf8 name).length ≤ 65535) ∧
        ∀ tag ∈ entries.map Prod.snd, Succeeds (writePayload tag depth) := by
  induction entries with
  | nil => simp [Succeeds, writeEntries]
  | cons entry rest ih =>
      obtain ⟨name, tag⟩ := entry
      simp only [List.map_cons, List.mem_cons, forall_eq_or_imp, ← succeeds_nbtString]
      constructor
      · intro h
        obtain ⟨bs, hbs⟩ := h
        obtain ⟨p, q, r, hp, hq, hr, -⟩ := writes_entries_cons.mp hbs
        obtain ⟨hnames, htags⟩ := ih.mp ⟨r, hr⟩
        exact ⟨⟨⟨p, hp⟩, fun x hx => succeeds_nbtString.mpr (hnames x hx)⟩, ⟨q, hq⟩, htags⟩
      · intro h
        obtain ⟨⟨⟨p, hp⟩, hnames⟩, ⟨q, hq⟩, htags⟩ := h
        obtain ⟨r, hr⟩ := ih.mpr ⟨fun x hx => succeeds_nbtString.mp (hnames x hx), htags⟩
        exact ⟨_, writes_entries_cons.mpr ⟨p, q, r, hp, hq, hr, rfl⟩⟩

theorem succeeds_compoundBody {c : NbtCompound} {depth : Nat} :
    Succeeds (writeCompoundBody c depth) ↔ depth ≤ maxDepth ∧ Succeeds (writeEntries c.entries depth) := by
  constructor
  · intro h
    obtain ⟨bs, hbs⟩ := h
    obtain ⟨hdepth, p, hp, -⟩ := writes_compoundBody.mp hbs
    exact ⟨hdepth, p, hp⟩
  · intro h
    obtain ⟨hdepth, p, hp⟩ := h
    exact ⟨_, writes_compoundBody.mpr ⟨hdepth, p, hp, rfl⟩⟩

/-- What a payload needs besides the depth of its holder: its own limits, and the same of its
    children. -/
theorem succeeds_payload {tag : NbtTag} {depth : Nat} :
    Succeeds (writePayload tag depth) ↔
      depth ≤ maxDepth ∧ WithinLimits (depth + 1) tag ∧
        ∀ child ∈ tag.children, Succeeds (writePayload child (depth + 1)) := by
  have hpayload : Succeeds (writePayload tag depth) ↔ depth ≤ maxDepth ∧ ∃ bs, PayloadBytes depth bs tag := by
    simp only [Succeeds, writes_payload, exists_and_left]
  rw [hpayload]
  refine and_congr_right fun _ => ?_
  cases tag with
  | compound c =>
      have hbody : (∃ bs, PayloadBytes depth bs (.compound c)) ↔
          Succeeds (writeCompoundBody c (depth + 1)) := Iff.rfl
      rw [hbody, succeeds_compoundBody, succeeds_entries, ← and_assoc]
      rfl
  | list l =>
      have hitems : (∃ bs, PayloadBytes depth bs (.list l)) ↔
          l.items.length ≤ 2147483647 ∧ Succeeds (writeItems l.items (depth + 1)) := by
        constructor
        · intro h
          obtain ⟨bs, hlen, p, hp, -⟩ := h
          exact ⟨Nat.le_of_lt_succ hlen, p, hp⟩
        · intro h
          obtain ⟨hlen, p, hp⟩ := h
          exact ⟨_, Nat.lt_succ_of_le hlen, p, hp, rfl⟩
      rw [hitems, succeeds_items]
      constructor
      · intro h
        refine ⟨⟨?_, h.1⟩, h.2⟩
        intro hne
        -- the first element is written at the level of the list
        obtain ⟨item, hitem⟩ := List.exists_mem_of_ne_nil _ hne
        obtain ⟨bs, hbs⟩ := h.2 item hitem
        exact (writes_payload.mp hbs).1
      · intro h
        exact ⟨h.1.2, h.2⟩
  | string value =>
      have hstring : (∃ bs, PayloadBytes depth bs (.string value)) ↔ Succeeds (writeNbtString value) := Iff.rfl
      rw [hstring, succeeds_nbtString]
      simp [WithinLimits, NbtTag.children]
  | byteArray value => simp [PayloadBytes, WithinLimits, NbtTag.children, Nat.lt_succ_iff]
  | intArray values => simp [PayloadBytes, WithinLimits, NbtTag.children, Nat.lt_succ_iff]
  | longArray values => simp [PayloadBytes, WithinLimits, NbtTag.children, Nat.lt_succ_iff]
  | _ => simp [PayloadBytes, WithinLimits, NbtTag.children]

/-- A payload is written exactly if its holder is within the depth limit and everything in it is within
    its limits, by induction on the tree. -/
theorem succeeds_payload_iff {tag : NbtTag} {depth : Nat} :
    Succeeds (writePayload tag depth) ↔ depth ≤ maxDepth ∧ AllWithin tag depth := by
  induction tag using NbtTag.induction generalizing depth with
  | step tag ih =>
      rw [succeeds_payload, allWithin_iff]
      refine and_congr_right fun _ => and_congr_right fun hlimits => ?_
      constructor
      · intro h child hchild
        exact ((ih child hchild).mp (h child hchild)).2
      · intro h child hchild
        refine (ih child hchild).mpr ⟨?_, h child hchild⟩
        -- a tag that has children is a container at most at the limit
        cases tag with
        | compound c => exact hlimits.1
        | list l => exact hlimits.1 (List.ne_nil_of_mem hchild)
        | _ => cases hchild

/-! ## Documents -/

theorem succeeds_root_iff {d : NbtCompound} :
    Succeeds (writeCompoundBody d 1) ↔ ∀ tag n, Placed (.compound d) tag n → WithinLimits n tag := by
  -- the root is written like the entry of a compound at level zero
  have hroot : Succeeds (writePayload (.compound d) 0) ↔ Succeeds (writeCompoundBody d 1) := by
    simp only [Succeeds, writes_payload, Nat.zero_le, true_and]
    rfl
  rw [← hroot, succeeds_payload_iff]
  simp [AllWithin]

/-- **Acceptance.** A document is written exactly if every tag in it is within the limits of its level;
    the root name, if there is one, is bound like any other name. -/
theorem write_succeeds_iff (d : NbtCompound) (name : String) :
    ((writeNetworkRoot d).result = .ok () ↔
      ∀ tag n, Placed (.compound d) tag n → WithinLimits n tag) ∧
    ((writeNamedRoot name d).result = .ok () ↔
      (utf8 name).length ≤ 65535 ∧ ∀ tag n, Placed (.compound d) tag n → WithinLimits n tag) := by
  rw [← succeeds_iff, ← succeeds_iff, ← succeeds_root_iff, ← succeeds_nbtString]
  constructor
  · simp [Succeeds, writeNetworkRoot]
  · simp only [Succeeds, writeNamedRoot, Put.writes_seq]
    constructor
    · intro h
      obtain ⟨bs, _, _, -, ⟨p, q, hp, hq, -⟩, -⟩ := h
      exact ⟨⟨p, hp⟩, ⟨q, hq⟩⟩
    · intro h
      obtain ⟨⟨p, hp⟩, ⟨q, hq⟩⟩ := h
      exact ⟨_, _, _, Put.writes_word.mpr rfl, ⟨p, q, hp, hq, rfl⟩, rfl⟩

end Pyrite.Nbt
