import Mathlib.Data.Finset.Card
import ThinkingUnderstanding.Math.InsertionMap

/-!
# What a map keeps of the writes to it

A map that enumerates its keys in insertion order is determined by the writes to it: a key
holds the value of the last write under it, and the first key with some property is the key of
the first write that has it. Both survive an update by another map, as if the writes to that
one had come after.

## Main definitions

* `latest` — the value of the last write under a key
* `Records` — the map is what a sequence of writes leaves

## Main results

* `Records.insert`, `Records.union` — one more write, and the writes to another map
* `Records.mem_keys_iff`, `Records.length_keys` — which keys there are
-/

namespace Math

variable {κ ν : Type*} [DecidableEq κ]

namespace InsertionMap

theorem get?_union (m m' : InsertionMap κ ν) (k : κ) :
    (m.union m').get? k = (m'.get? k).or (m.get? k) := by
  ext w
  rw [get?_eq_some_iff, mem_entries_union, Option.or_eq_some_iff, get?_eq_some_iff,
    get?_eq_some_iff]
  have absent : k ∉ m'.keys ↔ m'.get? k = none := by
    rw [Option.eq_none_iff_forall_ne_some]
    constructor
    · intro outside v found
      exact outside (mem_keys_of_mem_entries (get?_eq_some_iff.mp found))
    · intro none member
      obtain ⟨⟨k, v⟩, present, rfl⟩ := List.mem_map.mp member
      exact none v (get?_eq_some_iff.mpr present)
  rw [absent]

theorem find?_keys_insert (m : InsertionMap κ ν) (k : κ) (v : ν) (p : κ → Bool) :
    (m.insert k v).keys.find? p = (m.keys.find? p).or ([k].find? p) := by
  rw [keys_insert]
  split
  case isTrue present =>
    -- where the key has the property, one that has it is found before
    cases found : m.keys.find? p with
    | some k' => rfl
    | none => simpa using (List.find?_eq_none.mp found k present)
  case isFalse => rw [List.find?_append]

theorem find?_keys_foldl_insert (entries : List (κ × ν)) (m : InsertionMap κ ν) (p : κ → Bool) :
    (entries.foldl (fun acc entry => acc.insert entry.1 entry.2) m).keys.find? p =
      (m.keys.find? p).or ((entries.map Prod.fst).find? p) := by
  induction entries generalizing m with
  | nil => simp
  | cons entry rest ih =>
    rw [List.foldl_cons, ih, find?_keys_insert, Option.or_assoc, ← List.find?_append]
    rfl

theorem find?_keys_union (m m' : InsertionMap κ ν) (p : κ → Bool) :
    (m.union m').keys.find? p = (m.keys.find? p).or (m'.keys.find? p) :=
  find?_keys_foldl_insert m'.entries m p

end InsertionMap

/-- The value of the last write under the key. -/
def latest (writes : List (κ × ν)) (k : κ) : Option ν :=
  (writes.reverse.find? fun write => write.1 = k).map Prod.snd

@[simp] theorem latest_nil (k : κ) : latest ([] : List (κ × ν)) k = none := rfl

theorem latest_singleton (k k' : κ) (v : ν) :
    latest [(k, v)] k' = if k' = k then some v else none := by
  by_cases same : k' = k
  · simp [latest, same]
  · have other : k ≠ k' := fun h => same h.symm
    simp [latest, same, other]

/-- The value of the last write has been written. -/
theorem mem_of_latest {writes : List (κ × ν)} {k : κ} {v : ν} (found : latest writes k = some v) :
    (k, v) ∈ writes := by
  obtain ⟨write, has, rfl⟩ := Option.map_eq_some_iff.mp found
  have passes := List.find?_some has
  have same : write.1 = k := of_decide_eq_true passes
  rw [← same]
  exact List.mem_reverse.mp (List.mem_of_find?_eq_some has)

/-- Later writes win. -/
theorem latest_append (writes writes' : List (κ × ν)) (k : κ) :
    latest (writes ++ writes') k = (latest writes' k).or (latest writes k) := by
  rw [latest, List.reverse_append, List.find?_append, Option.map_or, latest, latest]

/-- The map is what a sequence of writes leaves. -/
structure Records (m : InsertionMap κ ν) (writes : List (κ × ν)) : Prop where
  get? : ∀ k, m.get? k = latest writes k
  find? : ∀ p : κ → Bool, m.keys.find? p = (writes.map Prod.fst).find? p

namespace Records

variable {m m' : InsertionMap κ ν} {writes writes' : List (κ × ν)}

theorem empty : Records (.empty : InsertionMap κ ν) [] := ⟨fun _ => rfl, fun _ => rfl⟩

/-- One more write. -/
theorem insert (records : Records m writes) (k : κ) (v : ν) :
    Records (m.insert k v) (writes ++ [(k, v)]) where
  get? k' := by
    rw [InsertionMap.get?_insert, latest_append, latest_singleton, records.get?]
    split <;> rfl
  find? p := by
    rw [InsertionMap.find?_keys_insert, records.find?, List.map_append, List.find?_append]
    rfl

/-- The writes to another map come after. -/
theorem union (records : Records m writes) (records' : Records m' writes') :
    Records (m.union m') (writes ++ writes') where
  get? k := by rw [InsertionMap.get?_union, latest_append, records.get?, records'.get?]
  find? p := by
    rw [InsertionMap.find?_keys_union, records.find?, records'.find?, List.map_append,
      List.find?_append]

/-- A map made of entries. -/
theorem ofList (entries : List (κ × ν)) : Records (.ofList entries) entries := by
  induction entries using List.reverseRecOn with
  | nil => exact empty
  | append_singleton entries last ih =>
    rw [InsertionMap.ofList, List.foldl_append]
    exact ih.insert last.1 last.2

/-- The entries of a map are writes that lead to it. -/
theorem entries (m : InsertionMap κ ν) : Records m m.entries where
  get? k := by
    have made := (ofList m.entries).get? k
    rw [← made]
    ext v
    rw [InsertionMap.get?_eq_some_iff, InsertionMap.get?_eq_some_iff,
      InsertionMap.entries_ofList_of_nodup m.nodup]
  find? _ := rfl

theorem mem_keys_iff (records : Records m writes) {k : κ} :
    k ∈ m.keys ↔ k ∈ writes.map Prod.fst := by
  have found := congrArg Option.isSome (records.find? fun k' => k' = k)
  rw [Bool.eq_iff_iff, List.find?_isSome, List.find?_isSome] at found
  simpa only [decide_eq_true_eq, exists_eq_right] using found

/-- There are as many keys as different ones have been written. -/
theorem length_keys (records : Records m writes) :
    m.keys.length = (writes.map Prod.fst).toFinset.card := by
  rw [← List.toFinset_card_of_nodup m.nodup_keys]
  congr 1
  ext k
  rw [List.mem_toFinset, List.mem_toFinset, records.mem_keys_iff]

end Records

end Math
