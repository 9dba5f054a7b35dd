import Mathlib.Tactic

set_option autoImplicit false

/-! # Insertion-ordered maps

A list of entries as a map that remembers the order of its keys. `put` overwrites the entry of a key where
it is, and appends an entry for a new key. What such a list has become after a history of `put`s is said
without looking at the list: its keys are those of the history in the order of their first occurrences, and
their values the last ones (`Represents`). -/

namespace Wire

variable {κ α : Type}

/-- The keys of a list of entries. -/
def keysOf (entries : List (κ × α)) : List κ := entries.map Prod.fst

@[simp] theorem keysOf_append (xs ys : List (κ × α)) : keysOf (xs ++ ys) = keysOf xs ++ keysOf ys :=
  List.map_append

theorem mem_keysOf {k : κ} {entries : List (κ × α)} : k ∈ keysOf entries ↔ ∃ v, (k, v) ∈ entries := by
  simp [keysOf]

variable [DecidableEq κ]

/-- The last value that a history gives to a key. -/
def lastValue (history : List (κ × α)) (k : κ) : Option α :=
  (history.reverse.find? fun entry => entry.1 == k).map Prod.snd

/-- Overwrite the value of a key in place, or append the key. -/
def put (k : κ) (v : α) : List (κ × α) → List (κ × α)
  | [] => [(k, v)]
  | (key, old) :: rest => if key = k then (key, v) :: rest else (key, old) :: put k v rest

theorem put_of_not_mem {k : κ} {v : α} {entries : List (κ × α)} (h : k ∉ keysOf entries) :
    put k v entries = entries ++ [(k, v)] := by
  induction entries with
  | nil => rfl
  | cons entry rest ih =>
      obtain ⟨key, old⟩ := entry
      obtain ⟨hne, hrest⟩ := not_or.mp (mt List.mem_cons.mpr h)
      rw [put, if_neg (Ne.symm hne), ih hrest, List.cons_append]

theorem keysOf_put_of_mem {k : κ} {v : α} {entries : List (κ × α)} (h : k ∈ keysOf entries) :
    keysOf (put k v entries) = keysOf entries := by
  induction entries with
  | nil => cases h
  | cons entry rest ih =>
      obtain ⟨key, old⟩ := entry
      rw [put]
      split_ifs with hkey
      · rfl
      · have hrest : k ∈ keysOf rest := (List.mem_cons.mp h).resolve_left (Ne.symm hkey)
        show key :: keysOf (put k v rest) = key :: keysOf rest
        rw [ih hrest]

/-- With one entry for each key, `put` changes the entry of its key and no other. -/
theorem mem_put {k : κ} {v : α} {entries : List (κ × α)} (h : (keysOf entries).Nodup) {key : κ} {value : α} :
    (key, value) ∈ put k v entries ↔ (key = k ∧ value = v) ∨ (key ≠ k ∧ (key, value) ∈ entries) := by
  induction entries with
  | nil => simp [put]
  | cons entry rest ih =>
      obtain ⟨first, old⟩ := entry
      obtain ⟨hfresh, hrest⟩ := List.nodup_cons.mp h
      rw [put]
      split_ifs with hfirst
      · subst hfirst
        have hne : (key, value) ∈ rest → key ≠ first := by
          intro hmem heq
          subst heq
          exact hfresh (mem_keysOf.mpr ⟨value, hmem⟩)
        rw [List.mem_cons, List.mem_cons, Prod.mk.injEq, Prod.mk.injEq]
        constructor
        · intro hmem
          rcases hmem with hmem | hmem
          · exact Or.inl hmem
          · exact Or.inr ⟨hne hmem, Or.inr hmem⟩
        · intro hmem
          rcases hmem with hmem | ⟨hkey, hmem | hmem⟩
          · exact Or.inl hmem
          · exact absurd hmem.1 hkey
          · exact Or.inr hmem
      · rw [List.mem_cons, List.mem_cons, ih hrest, Prod.mk.injEq]
        constructor
        · intro hmem
          rcases hmem with ⟨rfl, rfl⟩ | hmem | ⟨hkey, hmem⟩
          · exact Or.inr ⟨hfirst, Or.inl ⟨rfl, rfl⟩⟩
          · exact Or.inl hmem
          · exact Or.inr ⟨hkey, Or.inr hmem⟩
        · intro hmem
          rcases hmem with hmem | ⟨hkey, hmem | hmem⟩
          · exact Or.inr (Or.inl hmem)
          · exact Or.inl hmem
          · exact Or.inr (Or.inr ⟨hkey, hmem⟩)

theorem nodup_put {k : κ} {v : α} {entries : List (κ × α)} (h : (keysOf entries).Nodup) :
    (keysOf (put k v entries)).Nodup := by
  by_cases hk : k ∈ keysOf entries
  · rw [keysOf_put_of_mem hk]
    exact h
  · rw [put_of_not_mem hk, keysOf_append]
    exact h.append (List.nodup_singleton k) (List.disjoint_singleton.mpr hk)

/-- With one entry for each key, looking a key up finds the entry of the key. -/
theorem find?_eq_some_iff_mem {entries : List (κ × α)} (h : (keysOf entries).Nodup) {k : κ} {v : α} :
    (entries.find? fun entry => entry.1 == k).map Prod.snd = some v ↔ (k, v) ∈ entries := by
  induction entries with
  | nil => simp
  | cons entry rest ih =>
      obtain ⟨key, old⟩ := entry
      obtain ⟨hfresh, hrest⟩ := List.nodup_cons.mp h
      rw [List.find?_cons, List.mem_cons, Prod.mk.injEq]
      by_cases hkey : key = k
      · subst hkey
        have hnot : (key, v) ∉ rest := fun hmem => hfresh (mem_keysOf.mpr ⟨v, hmem⟩)
        simp [hnot, eq_comm]
      · have hbeq : (key == k) = false := beq_eq_false_iff_ne.mpr hkey
        simp only [hbeq, ih hrest, Ne.symm hkey, false_and, false_or]

theorem lastValue_concat (history : List (κ × α)) (k : κ) (v : α) (key : κ) :
    lastValue (history ++ [(k, v)]) key = if key = k then some v else lastValue history key := by
  unfold lastValue
  rw [List.reverse_append, List.reverse_singleton, List.singleton_append, List.find?_cons]
  by_cases hkey : key = k
  · simp [hkey]
  · have hne : (k == key) = false := beq_eq_false_iff_ne.mpr (Ne.symm hkey)
    simp [hkey, hne]

theorem lastValue_eq_none_iff {history : List (κ × α)} {k : κ} :
    lastValue history k = none ↔ k ∉ keysOf history := by
  rw [lastValue, Option.map_eq_none_iff, List.find?_eq_none, mem_keysOf]
  constructor
  · intro h hmem
    obtain ⟨v, hv⟩ := hmem
    exact h (k, v) (List.mem_reverse.mpr hv) (beq_self_eq_true k)
  · intro h entry hentry hkey
    obtain rfl : entry.1 = k := eq_of_beq hkey
    exact h ⟨entry.2, List.mem_reverse.mp hentry⟩

/-- The entries are what the history has made of an empty map. -/
structure Represents (history entries : List (κ × α)) : Prop where
  /-- Each key once, in the order of first occurrences. -/
  order : (keysOf entries).Pairwise fun a b =>
    (keysOf history).idxOf a < (keysOf history).idxOf b
  keys : ∀ k, k ∈ keysOf entries ↔ k ∈ keysOf history
  values : ∀ k v, (k, v) ∈ entries ↔ lastValue history k = some v

theorem represents_nil : Represents ([] : List (κ × α)) [] :=
  ⟨List.Pairwise.nil, fun _ => Iff.rfl, fun k v => by simp [lastValue]⟩

theorem Represents.nodup {history entries : List (κ × α)} (h : Represents history entries) :
    (keysOf entries).Nodup :=
  h.order.imp fun hlt heq => by
    subst heq
    exact lt_irrefl _ hlt

/-- As many entries as the history has distinct keys. -/
theorem Represents.length_eq {history entries : List (κ × α)} (h : Represents history entries) :
    entries.length = (keysOf history).toFinset.card := by
  have hset : (keysOf entries).toFinset = (keysOf history).toFinset := by
    ext k
    rw [List.mem_toFinset, List.mem_toFinset, h.keys]
  rw [← hset, List.toFinset_card_of_nodup h.nodup, keysOf, List.length_map]

theorem Represents.find?_eq {history entries : List (κ × α)} (h : Represents history entries) (k : κ) :
    (entries.find? fun entry => entry.1 == k).map Prod.snd = lastValue history k := by
  apply Option.ext
  intro v
  rw [find?_eq_some_iff_mem h.nodup, h.values]

/-- **One more `put`.** -/
theorem Represents.put_concat {history entries : List (κ × α)} (h : Represents history entries) (k : κ) (v : α) :
    Represents (history ++ [(k, v)]) (put k v entries) := by
  -- a key that has occurred keeps its first occurrence
  have hold : ∀ a ∈ keysOf entries, (keysOf (history ++ [(k, v)])).idxOf a = (keysOf history).idxOf a := by
    intro a ha
    rw [keysOf_append, List.idxOf_append_of_mem ((h.keys a).mp ha)]
  have horder : (keysOf entries).Pairwise fun a b =>
      (keysOf (history ++ [(k, v)])).idxOf a < (keysOf (history ++ [(k, v)])).idxOf b := by
    refine h.order.imp_of_mem fun {a b} ha hb hlt => ?_
    rwa [hold a ha, hold b hb]
  refine ⟨?_, ?_, ?_⟩
  · by_cases hk : k ∈ keysOf entries
    · rw [keysOf_put_of_mem hk]
      exact horder
    · have hkeys : keysOf (put k v entries) = keysOf entries ++ [k] := by
        rw [put_of_not_mem hk, keysOf_append]
        rfl
      rw [hkeys]
      refine List.pairwise_append.mpr ⟨horder, List.pairwise_singleton _ _, fun a ha b hb => ?_⟩
      obtain rfl : b = k := List.mem_singleton.mp hb
      have hnew : b ∉ keysOf history := mt (h.keys b).mpr hk
      rw [hold a ha, keysOf_append, List.idxOf_append_of_notMem hnew]
      exact Nat.lt_add_right _ (List.idxOf_lt_length_of_mem ((h.keys a).mp ha))
  · intro key
    by_cases hk : k ∈ keysOf entries
    · have hmem := (h.keys k).mp hk
      rw [keysOf_put_of_mem hk, h.keys, keysOf_append, List.mem_append]
      refine ⟨Or.inl, fun hkey => hkey.elim id fun hkey => ?_⟩
      obtain rfl : key = k := List.mem_singleton.mp hkey
      exact hmem
    · rw [put_of_not_mem hk, keysOf_append, keysOf_append, List.mem_append, List.mem_append, h.keys]
  · intro key value
    rw [mem_put h.nodup, lastValue_concat, h.values]
    split_ifs with hkey
    · simp [hkey, eq_comm]
    · simp [hkey]

end Wire
