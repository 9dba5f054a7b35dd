import Pyrite.Nbt.Fields
import Pyrite.Wire.Assoc

set_option autoImplicit false

/-! # Well-formed trees

`NbtTag.Wf`: at every level the names of a compound are pairwise distinct and the items of a list have
the list's element type. The public constructors keep it; the decoder's `push` and `fromParts` do not
check anything, and `Pyrite.Nbt.Canonical` shows why what they build is nevertheless well-formed. -/

namespace Pyrite.Nbt

open Wire

mutual

def NbtTag.Wf : NbtTag → Prop
  | .list l => l.Wf
  | .compound c => c.Wf
  | _ => True

def NbtCompound.Wf : NbtCompound → Prop
  | ⟨entries⟩ => (entries.map Prod.fst).Nodup ∧ EntriesWf entries

def EntriesWf : List (String × NbtTag) → Prop
  | [] => True
  | (_, tag) :: rest => tag.Wf ∧ EntriesWf rest

def NbtList.Wf : NbtList → Prop
  | ⟨elementType, items⟩ => (∀ item ∈ items, item.id = elementType) ∧ ItemsWf items

def ItemsWf : List NbtTag → Prop
  | [] => True
  | tag :: rest => tag.Wf ∧ ItemsWf rest

end

theorem entriesWf_iff {entries : List (String × NbtTag)} :
    EntriesWf entries ↔ ∀ entry ∈ entries, entry.2.Wf := by
  induction entries with
  | nil => simp [EntriesWf]
  | cons entry rest ih =>
      obtain ⟨name, tag⟩ := entry
      simp [EntriesWf, ih]

theorem itemsWf_iff {items : List NbtTag} : ItemsWf items ↔ ∀ item ∈ items, item.Wf := by
  induction items with
  | nil => simp [ItemsWf]
  | cons item rest ih => simp [ItemsWf, ih]

theorem NbtCompound.wf_iff {c : NbtCompound} :
    c.Wf ↔ c.names.Nodup ∧ ∀ entry ∈ c.entries, entry.2.Wf := by
  obtain ⟨entries⟩ := c
  rw [NbtCompound.Wf, entriesWf_iff]
  rfl

theorem NbtList.wf_iff {l : NbtList} :
    l.Wf ↔ (∀ item ∈ l.items, item.id = l.elementType) ∧ ∀ item ∈ l.items, item.Wf := by
  obtain ⟨elementType, items⟩ := l
  rw [NbtList.Wf, itemsWf_iff]

/-- Well-formedness passes to the tags below. -/
theorem NbtTag.Wf.of_mem_children {tag child : NbtTag} (h : tag.Wf) (hmem : child ∈ tag.children) :
    child.Wf := by
  cases tag with
  | list l =>
      rw [NbtTag.Wf, NbtList.wf_iff] at h
      exact h.2 child hmem
  | compound c =>
      rw [NbtTag.Wf, NbtCompound.wf_iff] at h
      obtain ⟨entry, hentry, rfl⟩ := List.mem_map.mp hmem
      exact h.2 entry hentry
  | _ => simp [NbtTag.children] at hmem

/-! ## The public constructors -/

theorem replaceFirst_eq (name : String) (value : NbtTag) (entries : List (String × NbtTag)) :
    NbtCompound.replaceFirst name value entries =
      if name ∈ keysOf entries then some (put name value entries) else none := by
  induction entries with
  | nil => rfl
  | cons entry rest ih =>
      obtain ⟨key, old⟩ := entry
      rw [NbtCompound.replaceFirst, put]
      by_cases hkey : key = name
      · have hmem : name ∈ keysOf ((key, old) :: rest) := hkey ▸ List.mem_cons_self ..
        rw [if_pos hkey, if_pos hkey, if_pos hmem]
      · have hmem : name ∈ keysOf ((key, old) :: rest) ↔ name ∈ keysOf rest :=
          List.mem_cons.trans (or_iff_right (Ne.symm hkey))
        rw [if_neg hkey, if_neg hkey, ih]
        simp only [hmem]
        split_ifs <;> rfl

theorem NbtCompound.insert_eq (c : NbtCompound) (name : String) (value : NbtTag) :
    c.insert name value = ⟨put name value c.entries⟩ := by
  rw [NbtCompound.insert, replaceFirst_eq]
  by_cases hmem : name ∈ keysOf c.entries
  · rw [if_pos hmem]
  · rw [if_neg hmem, put_of_not_mem hmem]

theorem NbtCompound.new_wf : NbtCompound.new.Wf := by
  simp [NbtCompound.wf_iff, NbtCompound.new, NbtCompound.names]

theorem NbtCompound.Wf.insert {c : NbtCompound} (hc : c.Wf) (name : String) {value : NbtTag}
    (hvalue : value.Wf) : (c.insert name value).Wf := by
  rw [NbtCompound.wf_iff] at hc ⊢
  rw [NbtCompound.insert_eq]
  refine ⟨nodup_put hc.1, fun entry hmem => ?_⟩
  obtain ⟨key, tag⟩ := entry
  rcases (mem_put hc.1).mp hmem with ⟨-, rfl⟩ | ⟨-, hmem⟩
  · exact hvalue
  · exact hc.2 (key, tag) hmem

theorem NbtCompound.ofPairs_wf {pairs : List (String × NbtTag)}
    (h : ∀ pair ∈ pairs, pair.2.Wf) : (NbtCompound.ofPairs pairs).Wf := by
  unfold NbtCompound.ofPairs
  refine List.foldlRecOn pairs _ NbtCompound.new_wf fun c hc pair hmem => ?_
  exact hc.insert pair.1 (h pair hmem)

theorem NbtList.empty_wf : NbtList.empty.Wf := by
  simp [NbtList.wf_iff, NbtList.empty]

theorem NbtList.new_wf {items : List NbtTag} {l : NbtList} (h : NbtList.new items = .ok l)
    (hitems : ∀ item ∈ items, item.Wf) : l.Wf := by
  unfold NbtList.new at h
  cases hhead : items.head? with
  | none =>
      rw [hhead] at h
      obtain rfl := Except.ok.inj h
      exact NbtList.empty_wf
  | some first =>
      cases hfind : items.find? (fun item => item.id != first.id) with
      | some item => simp [hhead, hfind] at h
      | none =>
          simp only [hhead, hfind] at h
          obtain rfl := Except.ok.inj h
          rw [NbtList.wf_iff]
          refine ⟨fun item hmem => ?_, hitems⟩
          simpa using List.find?_eq_none.mp hfind item hmem

/-! ## Consequences -/

/-- With distinct names, looking a name up finds the entry that iteration yields. -/
theorem NbtCompound.get_of_mem {c : NbtCompound} (h : c.names.Nodup) {name : String} {value : NbtTag}
    (hmem : (name, value) ∈ c.iter) : c.get name = some value :=
  (find?_eq_some_iff_mem h).mpr hmem

/-- Only an empty list can have element type `End`: no tag carries that identifier. -/
theorem NbtList.Wf.items_eq_nil {l : NbtList} (h : l.Wf) (hend : l.elementType = .endTag) :
    l.items = [] := by
  rw [NbtList.wf_iff] at h
  apply List.eq_nil_iff_forall_not_mem.mpr
  intro item hmem
  exact item.id_ne_endTag ((h.1 item hmem).trans hend)

end Pyrite.Nbt
