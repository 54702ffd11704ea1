import ThinkingUnderstanding.Context.ShortTermMemory

/-!
# The laws of merging contexts

A merge of two contexts keeps the frames and the two lists of selector requests, in which
later contexts win over earlier ones. Each of the three is united by an associative and
idempotent operation, so partial results can be merged in any grouping, and a base that
comes first and once more changes nothing. The life cycle relies on both: it merges the base
with the results of the actions, and then the base with that.

## Main results

* `merge_assoc`, `merge_merge_self` — groupings of a merge, and a repeated first context
* `mergeWithBaseContext_cons_self` — a base that is among the contexts merged onto it
* `merge_laws` — both together
-/

namespace ThinkingUnderstanding

open Math

variable {C P : Type}

namespace TypedKLine

variable {τ : Type}

theorem merge_merge_self (line other : TypedKLine τ) :
    (line.merge other).merge other = line.merge other := by
  have frames : (line.frames.union other.frames).union other.frames =
      line.frames.union other.frames := by
    rw [InsertionMap.union_assoc, InsertionMap.union_self]
  exact congrArg (fun frames => { line with frames }) frames

end TypedKLine

namespace ContextHelper

theorem mergeList_assoc (x y z : List SelectorRequest) :
    mergeList (mergeList x y) z = mergeList x (mergeList y z) := by
  have kept : ∀ p ∈ x, (decide (p ∉ z) && decide (p ∉ y)) =
      decide (p ∉ y.filter (fun p => p ∉ z) ++ z) := by
    intro p _
    by_cases last : p ∈ z <;> simp [last]
  rw [mergeList, mergeList, mergeList, mergeList, List.filter_append, List.filter_filter,
    List.filter_congr kept, List.append_assoc]

theorem mergeList_self (x : List SelectorRequest) : mergeList x x = x := by
  have none : x.filter (fun p => p ∉ x) = [] :=
    List.filter_eq_nil_iff.mpr fun p member outside => of_decide_eq_true outside member
  rw [mergeList, none, List.nil_append]

variable (first second third : ShortTermMemory C P)

/-- Merges can be grouped in either way. -/
theorem merge_assoc : merge (merge first second) third = merge first (merge second third) := by
  simp only [merge, createContext, InsertionMap.union_assoc, mergeList_assoc]

/-- A first context that comes twice is merged once. -/
theorem merge_merge_self : merge (merge first first) second = merge first second := by
  simp only [merge, createContext, InsertionMap.union_self, mergeList_self]

theorem mergeAll_cons_cons_self {contexts : List (ShortTermMemory C P)} (some : contexts ≠ []) :
    mergeAll (first :: first :: contexts) = mergeAll (first :: contexts) := by
  obtain ⟨second, rest, rfl⟩ := List.exists_cons_of_ne_nil some
  simp only [mergeAll, List.foldl_cons, merge_merge_self]

theorem firstSimulationResult_cons_cons_self (contexts : List (ShortTermMemory C P)) :
    firstSimulationResult (first :: first :: contexts) =
      firstSimulationResult (first :: contexts) := by
  simp only [firstSimulationResult, List.findSome?_cons]
  cases first.simulationResult <;> rfl

/-- A line to report, collected from a first context that comes twice. -/
theorem foldl_merge_cons_cons_self {τ : Type} (line : ShortTermMemory C P → TypedKLine τ)
    (contexts : List (ShortTermMemory C P)) (accum : TypedKLine τ) :
    (first :: first :: contexts).foldl (fun accum c => accum.merge (line c)) accum =
      (first :: contexts).foldl (fun accum c => accum.merge (line c)) accum := by
  simp only [List.foldl_cons, TypedKLine.merge_merge_self]

/-- What a list has before an equal part adds nothing. -/
theorem eraseDups_append_append_self {α : Type} [DecidableEq α] (as bs : List α) :
    (as ++ (as ++ bs)).eraseDups = (as ++ bs).eraseDups := by
  have removed : (as ++ bs).removeAll as = bs.removeAll as := by
    simp [List.removeAll]
  rw [List.eraseDups_append, removed, ← List.eraseDups_append]

variable [DecidableEq C] [DecidableEq P]

/-- A base that comes first among the contexts merged onto it changes nothing. -/
theorem mergeWithBaseContext_cons_self (base : ShortTermMemory C P)
    {contexts : List (ShortTermMemory C P)} (some : contexts ≠ []) :
    mergeWithBaseContext base (base :: contexts) = mergeWithBaseContext base contexts := by
  have last : (base :: base :: contexts).getLast (List.cons_ne_nil _ _) =
      (base :: contexts).getLast (List.cons_ne_nil _ _) :=
    List.getLast_cons (List.cons_ne_nil _ _)
  simp only [mergeWithBaseContext, last, mergeAll_cons_cons_self base some,
    firstSimulationResult_cons_cons_self, foldl_merge_cons_cons_self, List.flatMap_cons,
    eraseDups_append_append_self]

/-- The laws that the life cycle relies on when it merges partial results. -/
theorem merge_laws (first second third base : ShortTermMemory C P)
    (contexts : List (ShortTermMemory C P)) (some : contexts ≠ []) :
    merge (merge first second) third = merge first (merge second third) ∧
      mergeWithBaseContext base (base :: contexts) = mergeWithBaseContext base contexts :=
  ⟨merge_assoc first second third, mergeWithBaseContext_cons_self base some⟩

/-- A context whose last result is a selector request. -/
def requesting (uri : UriRef) : ShortTermMemory ConceptRef PhraseRef :=
  ofLastResult [] (.selectorRequest ⟨[], uri, {}⟩)

theorem merge_laws_two_requests :
    merge (merge (requesting 1) (requesting 2)) (requesting 1) =
        merge (requesting 1) (merge (requesting 2) (requesting 1)) ∧
      mergeWithBaseContext (requesting 1) [requesting 1, requesting 2] =
        mergeWithBaseContext (requesting 1) [requesting 2] :=
  merge_laws _ _ _ _ _ (List.cons_ne_nil _ _)

end ContextHelper

end ThinkingUnderstanding
