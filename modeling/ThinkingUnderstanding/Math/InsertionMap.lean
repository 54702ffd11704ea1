import Mathlib.Data.List.Induction
import Mathlib.Data.List.Nodup
import Mathlib.Data.List.Perm.Subperm

/-!
# Finite maps in insertion order

A finite map kept as the list of its entries, oldest key first. Inserting under a
key that is already present replaces the value in place, so the order of the keys
records when each key was first inserted. This is the iteration order of an immutable
map of Scala with up to four entries, and the order is observable: code that takes "the
first key such that …" depends on it. From five entries on such a map is a hash map; where
an order matters there, it is taken from a list of hash codes, and not from here.

The absence of repeated keys is a field of the structure.

## Main definitions

* `InsertionMap` — the entries, with pairwise distinct keys
* `InsertionMap.insert`, `InsertionMap.union` — update, and update by all the
  entries of another map
* `InsertionMap.ofKeyed` — elements of a list under their keys
* `InsertionMap.filter` — the entries that pass
* `InsertionMap.mapValues` — every value changed

## Main results

* `mem_keys_insert`, `mem_keys_union` — which keys an update leaves
* `entries_insert_of_notMem` — a fresh key goes to the end
* `mem_entries_union` — the entries after an update by a map
* `union_assoc`, `union_self` — updates by maps, one after another
* `mem_entries_ofKeyed` — of the elements with one key the last one is kept
* `mem_entries_ofList` — of the values with one key the last one is kept
-/

namespace Math

/-- A finite map from `κ` to `ν`, as its entries in insertion order. -/
@[ext]
structure InsertionMap (κ ν : Type*) where
  /-- The entries, oldest key first. -/
  entries : List (κ × ν)
  /-- No key occurs twice. -/
  nodup : (entries.map Prod.fst).Nodup

namespace InsertionMap

variable {κ ν : Type*}

/-- The map without entries. -/
def empty : InsertionMap κ ν := ⟨[], List.nodup_nil⟩

instance : Inhabited (InsertionMap κ ν) := ⟨empty⟩

instance [DecidableEq κ] [DecidableEq ν] : DecidableEq (InsertionMap κ ν) := fun m m' =>
  decidable_of_iff (m.entries = m'.entries) (InsertionMap.ext_iff).symm

/-- The keys, oldest first. -/
def keys (m : InsertionMap κ ν) : List κ := m.entries.map Prod.fst

/-- The values, in the order of their keys. -/
def values (m : InsertionMap κ ν) : List ν := m.entries.map Prod.snd

/-- The number of keys. -/
def size (m : InsertionMap κ ν) : ℕ := m.entries.length

@[simp] theorem entries_empty : (empty : InsertionMap κ ν).entries = [] := rfl

@[simp] theorem keys_empty : (empty : InsertionMap κ ν).keys = [] := rfl

@[simp] theorem values_empty : (empty : InsertionMap κ ν).values = [] := rfl

theorem nodup_keys (m : InsertionMap κ ν) : m.keys.Nodup := m.nodup

/-- Two values under one key are the same. -/
theorem eq_of_mem_entries {m : InsertionMap κ ν} {k : κ} {v v' : ν} (first : (k, v) ∈ m.entries)
    (second : (k, v') ∈ m.entries) : v = v' :=
  congrArg Prod.snd (List.inj_on_of_nodup_map m.nodup first second rfl)

/-- Maps with the same keys, in the same order, and the same values under them are equal. -/
theorem eq_of_keys {m m' : InsertionMap κ ν} (keys : m.keys = m'.keys)
    (entries : ∀ k v, (k, v) ∈ m.entries → (k, v) ∈ m'.entries) : m = m' := by
  have length : m.entries.length = m'.entries.length := by
    rw [← List.length_map Prod.fst, ← List.length_map Prod.fst]
    exact congrArg List.length keys
  ext1
  refine List.ext_getElem length fun i below below' => ?_
  have key : m.entries[i].1 = m'.entries[i].1 := by
    have same := List.getElem_of_eq keys (Nat.lt_of_lt_of_eq below (List.length_map Prod.fst).symm)
    simpa only [InsertionMap.keys, List.getElem_map] using same
  have held : (m.entries[i].1, m'.entries[i].2) ∈ m'.entries := by
    rw [key]
    exact List.getElem_mem below'
  exact Prod.ext key (eq_of_mem_entries (entries _ _ (List.getElem_mem below)) held)

theorem mem_keys_of_mem_entries {m : InsertionMap κ ν} {k : κ} {v : ν}
    (member : (k, v) ∈ m.entries) : k ∈ m.keys := List.mem_map.mpr ⟨(k, v), member, rfl⟩

/-- The entries that pass, in their order. -/
def filter (m : InsertionMap κ ν) (p : κ × ν → Bool) : InsertionMap κ ν where
  entries := m.entries.filter p
  nodup := m.nodup.sublist (List.filter_sublist.map Prod.fst)

theorem values_filter (m : InsertionMap κ ν) (p : ν → Bool) :
    (m.filter fun entry => p entry.2).values = m.values.filter p :=
  List.filter_map.symm

theorem size_eq_length_values (m : InsertionMap κ ν) : m.size = m.values.length :=
  (List.length_map Prod.snd).symm

variable [DecidableEq κ]

/-- Replace the value stored under `k`, or add the entry at the end. -/
def insertEntry (k : κ) (v : ν) : List (κ × ν) → List (κ × ν)
  | [] => [(k, v)]
  | (k', v') :: rest =>
      if k' = k then (k', v) :: rest else (k', v') :: insertEntry k v rest

theorem map_fst_insertEntry (k : κ) (v : ν) (entries : List (κ × ν)) :
    (insertEntry k v entries).map Prod.fst =
      if k ∈ entries.map Prod.fst then entries.map Prod.fst
      else entries.map Prod.fst ++ [k] := by
  induction entries with
  | nil => simp [insertEntry]
  | cons entry rest ih =>
    obtain ⟨k', v'⟩ := entry
    by_cases same : k' = k
    · simp [insertEntry, same]
    · have other : k ≠ k' := fun h => same h.symm
      simp only [insertEntry, if_neg same, List.map_cons, ih, List.mem_cons, other, false_or]
      split_ifs <;> rfl

/-- The map with `v` under the key `k`. -/
def insert (m : InsertionMap κ ν) (k : κ) (v : ν) : InsertionMap κ ν where
  entries := insertEntry k v m.entries
  nodup := by
    rw [map_fst_insertEntry]
    split_ifs with present
    · exact m.nodup
    · exact List.nodup_append.mpr ⟨m.nodup, List.nodup_singleton k, by
        rintro a ha b hb rfl
        exact present (List.mem_singleton.mp hb ▸ ha)⟩

/-- The map with every entry of `m'` inserted, so that `m'` wins on common keys. -/
def union (m m' : InsertionMap κ ν) : InsertionMap κ ν :=
  m'.entries.foldl (fun acc entry => acc.insert entry.1 entry.2) m

/-- The value stored under `k`. -/
def get? (m : InsertionMap κ ν) (k : κ) : Option ν :=
  (m.entries.find? fun entry => entry.1 = k).map Prod.snd

/-- The map with the given entries, later ones winning. -/
def ofList (entries : List (κ × ν)) : InsertionMap κ ν :=
  entries.foldl (fun acc entry => acc.insert entry.1 entry.2) empty

/-- The map of the given elements under their keys, later ones winning. -/
def ofKeyed {α : Type*} (key : α → κ) (elements : List α) : InsertionMap κ α :=
  elements.foldl (fun acc a => acc.insert (key a) a) empty

theorem keys_insert (m : InsertionMap κ ν) (k : κ) (v : ν) :
    (m.insert k v).keys = if k ∈ m.keys then m.keys else m.keys ++ [k] :=
  map_fst_insertEntry k v m.entries

@[simp] theorem mem_keys_insert {m : InsertionMap κ ν} {k k' : κ} {v : ν} :
    k' ∈ (m.insert k v).keys ↔ k' = k ∨ k' ∈ m.keys := by
  rw [keys_insert]
  split_ifs with present
  · refine ⟨Or.inr, ?_⟩
    rintro (rfl | member)
    · exact present
    · exact member
  · simp [or_comm]

theorem mem_keys_foldl_insert {entries : List (κ × ν)} {m : InsertionMap κ ν} {k : κ} :
    k ∈ (entries.foldl (fun acc entry => acc.insert entry.1 entry.2) m).keys ↔
      k ∈ m.keys ∨ k ∈ entries.map Prod.fst := by
  induction entries generalizing m with
  | nil => simp
  | cons entry rest ih =>
    rw [List.foldl_cons, ih, mem_keys_insert, List.map_cons, List.mem_cons]
    tauto

@[simp] theorem mem_keys_union {m m' : InsertionMap κ ν} {k : κ} :
    k ∈ (m.union m').keys ↔ k ∈ m.keys ∨ k ∈ m'.keys :=
  mem_keys_foldl_insert

/-- A key that is not present is added at the end. -/
theorem entries_insert_of_notMem {m : InsertionMap κ ν} {k : κ} (fresh : k ∉ m.keys) (v : ν) :
    (m.insert k v).entries = m.entries ++ [(k, v)] := by
  obtain ⟨entries, nodup⟩ := m
  change insertEntry k v entries = entries ++ [(k, v)]
  replace fresh : k ∉ entries.map Prod.fst := fresh
  clear nodup
  induction entries with
  | nil => rfl
  | cons entry rest ih =>
    obtain ⟨k', v'⟩ := entry
    rw [List.map_cons, List.mem_cons, not_or] at fresh
    have other : k' ≠ k := fun h => fresh.1 h.symm
    simp [insertEntry, other, ih fresh.2]

/-- The entries after an update: the new one, and the old ones under other keys. -/
theorem mem_entries_insert {m : InsertionMap κ ν} {k k' : κ} {v v' : ν} :
    (k', v') ∈ (m.insert k v).entries ↔
      (k' = k ∧ v' = v) ∨ (k' ≠ k ∧ (k', v') ∈ m.entries) := by
  obtain ⟨entries, nodup⟩ := m
  change (k', v') ∈ insertEntry k v entries ↔ _ ∨ (_ ∧ (k', v') ∈ entries)
  induction entries with
  | nil => simp [insertEntry]
  | cons entry rest ih =>
    obtain ⟨k₀, v₀⟩ := entry
    obtain ⟨outside, nodup⟩ := List.nodup_cons.mp nodup
    by_cases here : k₀ = k
    · subst here
      -- the key stands at one place only, so the rest has no entry for it
      have other : (k', v') ∈ rest → k' ≠ k₀ := by
        rintro member rfl
        exact outside (List.mem_map.mpr ⟨(k', v'), member, rfl⟩)
      simp only [insertEntry, if_true, List.mem_cons, Prod.mk.injEq]
      tauto
    · simp only [insertEntry, if_neg here, List.mem_cons, Prod.mk.injEq, ih nodup]
      constructor
      · rintro (⟨rfl, rfl⟩ | ⟨rfl, rfl⟩ | ⟨other, member⟩)
        · exact Or.inr ⟨here, Or.inl ⟨rfl, rfl⟩⟩
        · exact Or.inl ⟨rfl, rfl⟩
        · exact Or.inr ⟨other, Or.inr member⟩
      · rintro (⟨rfl, rfl⟩ | ⟨other, ⟨rfl, rfl⟩ | member⟩)
        · exact Or.inr (Or.inl ⟨rfl, rfl⟩)
        · exact Or.inl ⟨rfl, rfl⟩
        · exact Or.inr (Or.inr ⟨other, member⟩)

theorem mem_entries_insert_self (m : InsertionMap κ ν) (k : κ) (v : ν) :
    (k, v) ∈ (m.insert k v).entries := mem_entries_insert.mpr (Or.inl ⟨rfl, rfl⟩)

/-- Inserting entries under different keys: the new ones, and the old ones under other keys. -/
theorem mem_entries_foldl_insert {entries : List (κ × ν)} (nodup : (entries.map Prod.fst).Nodup)
    {m : InsertionMap κ ν} {k : κ} {v : ν} :
    (k, v) ∈ (entries.foldl (fun acc entry => acc.insert entry.1 entry.2) m).entries ↔
      (k, v) ∈ entries ∨ (k ∉ entries.map Prod.fst ∧ (k, v) ∈ m.entries) := by
  induction entries generalizing m with
  | nil => simp
  | cons entry rest ih =>
    obtain ⟨k₀, v₀⟩ := entry
    obtain ⟨outside, nodup⟩ := List.nodup_cons.mp nodup
    rw [List.foldl_cons, ih nodup, mem_entries_insert, List.mem_cons, Prod.mk.injEq, List.map_cons,
      List.mem_cons]
    by_cases same : k = k₀
    · subst same
      have absent : (k, v) ∉ rest := fun member => outside (List.mem_map.mpr ⟨(k, v), member, rfl⟩)
      simp [outside, absent]
    · simp [same]

/-- The entries of an update by a map: its own, and the old ones under other keys. -/
theorem mem_entries_union {m m' : InsertionMap κ ν} {k : κ} {v : ν} :
    (k, v) ∈ (m.union m').entries ↔
      (k, v) ∈ m'.entries ∨ (k ∉ m'.keys ∧ (k, v) ∈ m.entries) :=
  mem_entries_foldl_insert m'.nodup

/-- An update by the map itself changes no entry. -/
theorem mem_entries_union_self {m : InsertionMap κ ν} {k : κ} {v : ν} :
    (k, v) ∈ (m.union m).entries ↔ (k, v) ∈ m.entries := by
  rw [mem_entries_union]
  exact ⟨fun either => either.elim id And.right, Or.inl⟩

theorem keys_foldl_insert {entries : List (κ × ν)} (nodup : (entries.map Prod.fst).Nodup)
    (m : InsertionMap κ ν) :
    (entries.foldl (fun acc entry => acc.insert entry.1 entry.2) m).keys =
      m.keys ++ (entries.map Prod.fst).filter (fun k => k ∉ m.keys) := by
  induction entries generalizing m with
  | nil => rw [List.map_nil, List.filter_nil, List.append_nil, List.foldl_nil]
  | cons entry rest ih =>
    obtain ⟨outside, nodup⟩ := List.nodup_cons.mp nodup
    -- a key comes once, so it is as new as it was before
    have later : ∀ k ∈ rest.map Prod.fst,
        decide (k ∉ (m.insert entry.1 entry.2).keys) = decide (k ∉ m.keys) := by
      intro k member
      have other : k ≠ entry.1 := fun same => outside (same ▸ member)
      simp [other]
    rw [List.foldl_cons, ih nodup, List.filter_congr later, keys_insert, List.map_cons,
      List.filter_cons]
    split_ifs with present fresh
    · exact absurd present (of_decide_eq_true fresh)
    · rfl
    · rw [List.append_assoc, List.singleton_append]
    · exact absurd (decide_eq_true present) ‹_›

/-- The keys of a union: those of the first map, then the new ones of the second. -/
theorem keys_union (m m' : InsertionMap κ ν) :
    (m.union m').keys = m.keys ++ m'.keys.filter fun k => k ∉ m.keys :=
  keys_foldl_insert m'.nodup m

theorem union_assoc (m m' m'' : InsertionMap κ ν) :
    (m.union m').union m'' = m.union (m'.union m'') := by
  apply eq_of_keys
  · simp only [keys_union, List.filter_append, List.filter_filter, List.append_assoc,
      List.mem_append, List.mem_filter, not_or]
    congr 2
    apply List.filter_congr
    intro k _
    by_cases first : k ∈ m.keys <;> simp [first]
  · intro k v
    simp only [mem_entries_union, mem_keys_union, not_or]
    tauto

/-- A union of a map with itself changes nothing. -/
theorem union_self (m : InsertionMap κ ν) : m.union m = m := by
  apply eq_of_keys
  · rw [keys_union]
    simp
  · exact fun k v => mem_entries_union_self.mp

@[simp] theorem mem_keys_ofKeyed {α : Type*} {key : α → κ} {elements : List α} {k : κ} :
    k ∈ (ofKeyed key elements).keys ↔ ∃ a ∈ elements, key a = k := by
  have filled : k ∈ ((elements.map fun a => (key a, a)).foldl
      (fun acc entry => acc.insert entry.1 entry.2) (empty : InsertionMap κ α)).keys ↔ _ :=
    mem_keys_foldl_insert
  rw [List.foldl_map] at filled
  unfold ofKeyed
  rw [filled]
  simp

/-- A map of elements under their keys holds under every key the last element with it. -/
theorem mem_entries_ofKeyed {α : Type*} {key : α → κ} {elements : List α} {k : κ} {a : α} :
    (k, a) ∈ (ofKeyed key elements).entries ↔
      key a = k ∧ ∃ before after, elements = before ++ a :: after ∧ ∀ b ∈ after, key b ≠ k := by
  -- on the elements from the first one, as a later one replaces an earlier one
  induction elements using List.reverseRecOn with
  | nil => simp [ofKeyed]
  | append_singleton elements last ih =>
    have step : ofKeyed key (elements ++ [last]) =
        (ofKeyed key elements).insert (key last) last := by
      simp only [ofKeyed, List.foldl_append, List.foldl_cons, List.foldl_nil]
    rw [step, mem_entries_insert, ih]
    constructor
    · rintro (⟨rfl, rfl⟩ | ⟨other, same, before, after, rfl, later⟩)
      · exact ⟨rfl, elements, [], rfl, fun _ member => nomatch member⟩
      · refine ⟨same, before, after ++ [last], by simp, fun b member => ?_⟩
        rcases List.mem_append.mp member with inside | final
        · exact later b inside
        · rw [List.mem_singleton.mp final]
          exact fun same => other same.symm
    · rintro ⟨same, before, after, split, later⟩
      rcases List.eq_nil_or_concat after with rfl | ⟨after', final, rfl⟩
      · obtain ⟨-, final⟩ := List.append_inj' split rfl
        obtain rfl : last = a := (List.cons.inj final).1
        exact Or.inl ⟨same.symm, rfl⟩
      · have split' : elements ++ [last] = (before ++ a :: after') ++ [final] := by
          rw [split, List.concat_eq_append, List.append_assoc, List.cons_append]
        obtain ⟨rfl, final'⟩ := List.append_inj' split' rfl
        obtain rfl : last = final := (List.cons.inj final').1
        refine Or.inr ⟨fun same => later last (by simp) same.symm, same, before, after', rfl,
          fun b member => later b (by simp [member])⟩

/-- A map of entries holds under every key the value of the last entry with it. -/
theorem mem_entries_ofList {entries : List (κ × ν)} {k : κ} {v : ν} :
    (k, v) ∈ (ofList entries).entries ↔
      ∃ before after, entries = before ++ (k, v) :: after ∧ ∀ e ∈ after, e.1 ≠ k := by
  -- the entries themselves, under their keys, are held alike
  have alike : (k, v) ∈ (ofList entries).entries ↔
      (k, (k, v)) ∈ (ofKeyed Prod.fst entries).entries := by
    induction entries using List.reverseRecOn with
    | nil => exact iff_of_false List.not_mem_nil List.not_mem_nil
    | append_singleton entries last ih =>
      have stepList : ofList (entries ++ [last]) = (ofList entries).insert last.1 last.2 := by
        simp only [ofList, List.foldl_append, List.foldl_cons, List.foldl_nil]
      have stepKeyed : ofKeyed Prod.fst (entries ++ [last]) =
          (ofKeyed Prod.fst entries).insert last.1 last := by
        simp only [ofKeyed, List.foldl_append, List.foldl_cons, List.foldl_nil]
      rw [stepList, stepKeyed, mem_entries_insert, mem_entries_insert, ih, Prod.ext_iff]
      simp
  rw [alike, mem_entries_ofKeyed]
  simp

/-- Some value is held under every key of the entries. -/
theorem exists_mem_entries_ofList {entries : List (κ × ν)} {k : κ} {v : ν}
    (member : (k, v) ∈ entries) : ∃ v', (k, v') ∈ (ofList entries).entries := by
  have key : k ∈ (ofList entries).keys :=
    mem_keys_foldl_insert.mpr (Or.inr (List.mem_map_of_mem member))
  obtain ⟨⟨_, v'⟩, present, rfl⟩ := List.mem_map.mp key
  exact ⟨v', present⟩

/-- An entry of a map made of entries is one of them. -/
theorem mem_of_mem_entries_ofList {entries : List (κ × ν)} {e : κ × ν}
    (member : e ∈ (ofList entries).entries) : e ∈ entries := by
  obtain ⟨before, after, rfl, -⟩ := mem_entries_ofList.mp member
  exact List.mem_append_right before List.mem_cons_self

/-- The keys of a map of entries are among those of the entries, each once. -/
theorem subperm_keys_ofList (entries : List (κ × ν)) :
    (ofList entries).keys.Subperm (entries.map Prod.fst) := by
  apply List.subperm_of_subset (ofList entries).nodup_keys
  intro k member
  obtain ⟨⟨_, v⟩, present, rfl⟩ := List.mem_map.mp member
  exact List.mem_map_of_mem (mem_of_mem_entries_ofList present)

/-- A map of entries with different keys is made of them. -/
theorem entries_ofList_of_nodup {entries : List (κ × ν)} (nodup : (entries.map Prod.fst).Nodup) :
    (ofList entries).entries = entries := by
  induction entries using List.reverseRecOn with
  | nil => rfl
  | append_singleton entries last ih =>
    have step : ofList (entries ++ [last]) = (ofList entries).insert last.1 last.2 := by
      simp only [ofList, List.foldl_append, List.foldl_cons, List.foldl_nil]
    rw [List.map_append, List.nodup_append] at nodup
    have entries' := ih nodup.1
    have fresh : last.1 ∉ (ofList entries).keys := by
      rw [keys, entries']
      exact fun member => nodup.2.2 _ member _ (List.mem_singleton.mpr rfl) rfl
    rw [step, entries_insert_of_notMem fresh, entries']

theorem get?_eq_some_iff {m : InsertionMap κ ν} {k : κ} {v : ν} :
    m.get? k = some v ↔ (k, v) ∈ m.entries := by
  unfold get?
  constructor
  · intro found
    obtain ⟨⟨k', v'⟩, first, rfl⟩ := Option.map_eq_some_iff.mp found
    have same : k' = k := by simpa using List.find?_some first
    exact same ▸ List.mem_of_find?_eq_some first
  · intro member
    cases first : m.entries.find? fun entry => entry.1 = k with
    | none => exact absurd (decide_eq_true rfl) (List.find?_eq_none.mp first _ member)
    | some entry =>
      have same : entry.1 = k := by simpa using List.find?_some first
      have present : (k, entry.2) ∈ m.entries := same ▸ List.mem_of_find?_eq_some first
      rw [Option.map_some, eq_of_mem_entries present member]

theorem get?_insert (m : InsertionMap κ ν) (k k' : κ) (v : ν) :
    (m.insert k v).get? k' = if k' = k then some v else m.get? k' := by
  ext w
  rw [get?_eq_some_iff, mem_entries_insert]
  split
  case isTrue same => simp [same, eq_comm]
  case isFalse other => simp [other, get?_eq_some_iff]

/-- What is left when a key is taken out. -/
theorem get?_filter_ne {m : InsertionMap κ ν} {k k' : κ} :
    (m.filter fun entry => entry.1 ≠ k).get? k' = if k' = k then none else m.get? k' := by
  refine Option.ext fun v' => ?_
  rw [get?_eq_some_iff, filter, List.mem_filter]
  split_ifs with same
  · simp [same]
  · simp [same, get?_eq_some_iff]

/-- Every value is changed, and the keys stay. -/
def mapValues (f : ν → ν) (m : InsertionMap κ ν) : InsertionMap κ ν where
  entries := m.entries.map fun entry => (entry.1, f entry.2)
  nodup := by
    rw [List.map_map]
    exact m.nodup

omit [DecidableEq κ] in
@[simp] theorem keys_mapValues {f : ν → ν} {m : InsertionMap κ ν} :
    (m.mapValues f).keys = m.keys := List.map_map

@[simp] theorem get?_mapValues {f : ν → ν} {m : InsertionMap κ ν} {k : κ} :
    (m.mapValues f).get? k = (m.get? k).map f := by
  rw [get?, get?, mapValues, List.find?_map, Option.map_map, Option.map_map]
  rfl

/-- Maps with the same keys, in the same order, are equal when they look alike. -/
theorem ext_get? {m m' : InsertionMap κ ν} (keys : m.keys = m'.keys)
    (look : ∀ k, m.get? k = m'.get? k) : m = m' :=
  eq_of_keys keys fun k v member => by
    rw [← get?_eq_some_iff] at member ⊢
    rw [← look, member]

theorem mem_values_iff {m : InsertionMap κ ν} {v : ν} : v ∈ m.values ↔ ∃ k, m.get? k = some v := by
  simp [values, get?_eq_some_iff]

theorem mem_keys_iff {m : InsertionMap κ ν} {k : κ} : k ∈ m.keys ↔ ∃ v, m.get? k = some v := by
  simp [keys, get?_eq_some_iff]

end InsertionMap

end Math
