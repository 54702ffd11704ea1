import Mathlib.Data.Finset.Card
import Mathlib.Data.List.Basic
import ThinkingUnderstanding.Math.Descent
import ThinkingUnderstanding.Math.InsertionMap

/-!
# Collections that hash their elements

A hash function that recurses into its argument may never return. A collection that hashes
its elements returns only if the function does on the elements it hashes, and which those are
depends on the collection: the set behind `distinct` hashes all of them, an immutable set has
no table to find an element in until it has more than four elements.

The function is a partial one, with no value where it does not return, and equality of
elements is decided without it.

## Main definitions

* `Semantics.distinct` — a list without its repetitions
* `Semantics.toSet` — the immutable set of the elements of a list
* `Semantics.toMap`, `Semantics.mapGet` — the immutable map of entries, and a lookup in it

## Main results

* `isSome_distinct_iff`, `distinct_eq_some` — when and what `distinct` returns
* `isSome_toSet_iff`, `isSome_toMap_iff` — when `toSet` and `toMap` return
* `toMap_eq_some`, `mapGet_eq_some` — a map that returns holds its entries, and its keys are
  found in it
-/

namespace Semantics

variable {α η : Type} [DecidableEq α] (hash : α → Option η)

/-! ## Lists without repetitions -/

/-- Go through the list, and keep in reverse what has not been seen before. -/
def distinctLoop : List α → List α → Option (List α)
  | [], seen => some seen.reverse
  | a :: rest, seen => do
      -- the lookup in a set hashes the element, even where the set has none
      let _ ← hash a
      distinctLoop rest (if a ∈ seen then seen else a :: seen)

/-- `List.distinct`. -/
def distinct (as : List α) : Option (List α) := distinctLoop hash as []

theorem isSome_distinctLoop_iff {as seen : List α} :
    (distinctLoop hash as seen).isSome ↔ ∀ a ∈ as, (hash a).isSome := by
  induction as generalizing seen with
  | nil => simp [distinctLoop]
  | cons a rest ih =>
    rw [distinctLoop, List.forall_mem_cons]
    cases hash a with
    | none => simp
    | some value => exact ih.trans (and_iff_right rfl).symm

/-- `distinct` returns exactly when each element can be hashed. -/
theorem isSome_distinct_iff {as : List α} :
    (distinct hash as).isSome ↔ ∀ a ∈ as, (hash a).isSome :=
  isSome_distinctLoop_iff hash

theorem distinctLoop_eq_some {as seen : List α} (hashed : ∀ a ∈ as, (hash a).isSome) :
    distinctLoop hash as seen = some (List.eraseDupsBy.loop (· == ·) as seen) := by
  induction as generalizing seen with
  | nil => rfl
  | cons a rest ih =>
    rw [List.forall_mem_cons] at hashed
    obtain ⟨value, has⟩ := Option.isSome_iff_exists.mp hashed.1
    have found : seen.any (a == ·) = decide (a ∈ seen) := by
      rw [List.any_beq, List.contains_eq_mem]
    rw [distinctLoop, has, List.eraseDupsBy.loop, found]
    refine (ih hashed.2).trans ?_
    by_cases member : a ∈ seen
    · rw [if_pos member, decide_eq_true member]
    · rw [if_neg member, decide_eq_false member]

/-- What `distinct` returns are the first occurrences. -/
theorem distinct_eq_some {as : List α} (hashed : ∀ a ∈ as, (hash a).isSome) :
    distinct hash as = some as.eraseDups :=
  distinctLoop_eq_some hash hashed

/-! ## Immutable sets -/

/-- The elements that are hashed when an element is added to a set. The sets of up to four
elements are classes of their own that compare; where a fifth one comes, all go into a table. -/
def hashedBy (set : List α) (a : α) : List α :=
  if 4 < set.length then [a] else if a ∈ set ∨ set.length < 4 then [] else set ++ [a]

/-- The elements of the set after the addition of another one. -/
def setInsert (set : List α) (a : α) : List α := if a ∈ set then set else set ++ [a]

/-- `Set.+`. -/
def setAdd (set : List α) (a : α) : Option (List α) :=
  ((hashedBy set a).mapM hash).map fun _ => setInsert set a

/-- `List.toSet`. -/
def toSet (as : List α) : Option (List α) := as.foldlM (setAdd hash) []

variable {set rest : List α} {a b : α}

theorem mem_setInsert : b ∈ setInsert set a ↔ b ∈ set ∨ b = a := by
  rw [setInsert]
  split
  case isTrue member =>
    constructor
    · exact Or.inl
    · rintro (old | rfl)
      · exact old
      · exact member
  case isFalse => rw [List.mem_append, List.mem_singleton]

theorem nodup_setInsert (nodup : set.Nodup) : (setInsert set a).Nodup := by
  rw [setInsert]
  split
  case isTrue => exact nodup
  case isFalse fresh =>
    apply nodup.append (List.nodup_singleton a)
    exact List.disjoint_singleton.mpr fresh

theorem length_le_length_setInsert : set.length ≤ (setInsert set a).length := by
  rw [setInsert]
  split
  · exact le_rfl
  · rw [List.length_append]
    exact Nat.le_add_right _ _

/-- Only elements of a set that has more than four are hashed. -/
theorem lt_length_of_mem_hashedBy (member : b ∈ hashedBy set a) :
    4 < (setInsert set a).length ∧ b ∈ setInsert set a := by
  rw [hashedBy] at member
  split_ifs at member with large known
  · rw [List.mem_singleton] at member
    exact ⟨large.trans_le length_le_length_setInsert, mem_setInsert.mpr (Or.inr member)⟩
  · cases member
  · rw [not_or] at known
    rw [setInsert, if_neg known.1, List.length_append, List.length_singleton]
    exact ⟨by omega, member⟩

/-- A set that comes to have more than four elements hashes them, those of an even larger
set being hashed before. -/
theorem mem_hashedBy (large : 4 < (setInsert set a).length) (member : b ∈ setInsert set a) :
    b ∈ hashedBy set a ∨ 4 < set.length ∧ b ∈ set := by
  rw [hashedBy]
  split_ifs with before known
  · rcases mem_setInsert.mp member with old | same
    · exact Or.inr ⟨before, old⟩
    · exact Or.inl (List.mem_singleton.mpr same)
  · rw [setInsert] at large
    split_ifs at large with known'
    · exact absurd large before
    · rw [List.length_append, List.length_singleton] at large
      have small := known.resolve_left known'
      omega
  · rw [not_or] at known
    rw [setInsert, if_neg known.1] at member
    exact Or.inl member

theorem isSome_foldlM_setAdd_iff (nodup : set.Nodup)
    (before : 4 < set.length → ∀ b ∈ set, (hash b).isSome) :
    (rest.foldlM (setAdd hash) set).isSome ↔
      (set ++ rest).toFinset.card ≤ 4 ∨ ∀ b ∈ set ++ rest, (hash b).isSome := by
  induction rest generalizing set with
  | nil =>
    rw [List.append_nil, List.toFinset_card_of_nodup nodup]
    refine iff_of_true rfl ?_
    rcases Nat.lt_or_ge 4 set.length with large | small
    · exact Or.inr (before large)
    · exact Or.inl small
  | cons a rest ih =>
    -- inserting moves an element from the rest to the set and changes no other
    have same : ∀ b, b ∈ setInsert set a ++ rest ↔ b ∈ set ++ a :: rest := by
      intro b
      simp only [List.mem_append, List.mem_cons, mem_setInsert, or_assoc]
    have sameSet : (setInsert set a ++ rest).toFinset = (set ++ a :: rest).toFinset := by
      ext b
      rw [List.mem_toFinset, List.mem_toFinset, same]
    -- one turn hashes what the set asks for, and goes on with the set that is inserted to
    have run : (List.foldlM (setAdd hash) set (a :: rest)).isSome ↔
        ((hashedBy set a).mapM hash).isSome ∧
          (rest.foldlM (setAdd hash) (setInsert set a)).isSome := by
      rw [List.foldlM_cons, setAdd]
      cases (hashedBy set a).mapM hash with
      | none => simp
      | some values => exact (and_iff_right rfl).symm
    rw [run, Math.isSome_mapM_iff]
    by_cases hashed : ∀ b ∈ hashedBy set a, (hash b).isSome
    · rw [and_iff_right hashed, ih (nodup_setInsert nodup), sameSet]
      · simp only [same]
      · intro large b member
        rcases mem_hashedBy large member with now | ⟨large', old⟩
        · exact hashed b now
        · exact before large' b old
    · -- an element that cannot be hashed is in a set of more than four elements
      refine iff_of_false (fun both => hashed both.1) ?_
      push Not at hashed
      obtain ⟨b, member, never⟩ := hashed
      obtain ⟨large, present⟩ := lt_length_of_mem_hashedBy member
      have inside : (setInsert set a).toFinset ⊆ (set ++ a :: rest).toFinset := by
        rw [← sameSet, List.toFinset_append]
        exact Finset.subset_union_left
      have count := Finset.card_le_card inside
      rw [List.toFinset_card_of_nodup (nodup_setInsert nodup)] at count
      rintro (small | all)
      · exact absurd (large.trans_le count) (not_lt.mpr small)
      · exact never (all b ((same b).mp (List.mem_append_left _ present)))

/-- `toSet` returns exactly when there are at most four different elements, or each can be
hashed. -/
theorem isSome_toSet_iff {as : List α} :
    (toSet hash as).isSome ↔ as.toFinset.card ≤ 4 ∨ ∀ a ∈ as, (hash a).isSome :=
  isSome_foldlM_setAdd_iff hash List.nodup_nil fun large => absurd large (Nat.not_lt_zero _)

/-! ## Immutable maps -/

section Map

open Math

variable {β : Type}

/-- `Map.+`, which hashes keys as `Set.+` does elements. -/
def mapAdd (map : InsertionMap α β) (entry : α × β) : Option (InsertionMap α β) :=
  ((hashedBy map.keys entry.1).mapM hash).map fun _ => map.insert entry.1 entry.2

/-- `List.toMap`. -/
def toMap (entries : List (α × β)) : Option (InsertionMap α β) :=
  entries.foldlM (mapAdd hash) .empty

/-- `Map.get`: in a table the key is hashed. -/
def mapGet (map : InsertionMap α β) (key : α) : Option (Option β) :=
  if 4 < map.size then (hash key).map fun _ => map.get? key else some (map.get? key)

theorem foldlM_mapAdd (entries : List (α × β)) (map : InsertionMap α β) :
    entries.foldlM (mapAdd hash) map =
      ((entries.map Prod.fst).foldlM (setAdd hash) map.keys).map fun _ =>
        entries.foldl (fun acc entry => acc.insert entry.1 entry.2) map := by
  induction entries generalizing map with
  | nil => rfl
  | cons entry rest ih =>
    have keys : (map.insert entry.1 entry.2).keys = setInsert map.keys entry.1 :=
      map.keys_insert entry.1 entry.2
    rw [List.foldlM_cons, List.map_cons, List.foldlM_cons, mapAdd, setAdd]
    cases (hashedBy map.keys entry.1).mapM hash with
    | none => rfl
    | some values =>
      change rest.foldlM (mapAdd hash) (map.insert entry.1 entry.2) = _
      rw [ih, keys]
      rfl

theorem toMap_eq (entries : List (α × β)) :
    toMap hash entries = (toSet hash (entries.map Prod.fst)).map fun _ => .ofList entries :=
  foldlM_mapAdd hash entries .empty

/-- `toMap` returns exactly when there are at most four different keys, or each can be hashed. -/
theorem isSome_toMap_iff {entries : List (α × β)} :
    (toMap hash entries).isSome ↔
      (entries.map Prod.fst).toFinset.card ≤ 4 ∨ ∀ key ∈ entries.map Prod.fst, (hash key).isSome := by
  rw [toMap_eq, Option.isSome_map, isSome_toSet_iff]

theorem toMap_eq_some {entries : List (α × β)} (returns : (toMap hash entries).isSome) :
    toMap hash entries = some (.ofList entries) := by
  rw [toMap_eq, Option.isSome_map] at returns
  obtain ⟨keys, has⟩ := Option.isSome_iff_exists.mp returns
  rw [toMap_eq, has]
  rfl

/-- The keys of a map that `toMap` returns are found in it: where it is a table, they have been
hashed before. -/
theorem mapGet_eq_some {entries : List (α × β)} (returns : (toMap hash entries).isSome) {key : α}
    (member : key ∈ entries.map Prod.fst) :
    mapGet hash (.ofList entries) key = some ((InsertionMap.ofList entries).get? key) := by
  rw [mapGet]
  split
  case isTrue large =>
    have same : (InsertionMap.ofList entries).keys.toFinset = (entries.map Prod.fst).toFinset := by
      ext k
      rw [List.mem_toFinset, List.mem_toFinset, InsertionMap.ofList,
        InsertionMap.mem_keys_foldl_insert]
      simp
    have card := List.toFinset_card_of_nodup (InsertionMap.ofList entries).nodup_keys
    rw [same, InsertionMap.keys, List.length_map] at card
    have hashed := ((isSome_toMap_iff hash).mp returns).resolve_left (card ▸ not_le.mpr large)
    obtain ⟨value, has⟩ := Option.isSome_iff_exists.mp (hashed key member)
    rw [has]
    rfl
  case isFalse => rfl

end Map

end Semantics
