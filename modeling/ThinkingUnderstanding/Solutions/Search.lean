import Mathlib.Data.List.MinMax
import ThinkingUnderstanding.Model.Generalisation

/-!
# The search for a stored solution

`Solutions.search` computes the relevance of every stored solution to the issue, files
the solutions in a map under their relevance, and takes the entry of the lowest key.
Solutions of equal relevance replace each other in the map, so the last stored one of the
lowest relevance is found. The list of rejected solutions is passed on and never read,
and of an empty map no minimum can be taken.

Relevance is computed in exact arithmetic. The recursion through generalisations runs on
a stack of a given depth.

## Main definitions

* `findMissing`, `relevance`, `searchNotEffective`, `search` — the methods of `Solutions`
* `IsOptimal` — what the search is for
* `BestIsFound` — the condition on the store under which it is achieved

## Main results

* `search_eq_ok_iff` — what the search returns
* `search_isOptimal_iff` — when that is optimal
-/

namespace ThinkingUnderstanding

open Math

/-- A `SolvedIssue`, with the network of its issue. -/
structure SolvedIssue where
  object : ℕ
  issue : NetworkRef
  deriving DecidableEq, Repr

namespace Solutions

/-- Why a search ends with an exception. -/
inductive SearchFailure
  | stackOverflow
  | unsupportedOperation (message : String)
  deriving DecidableEq, Repr

variable (heap : Heap) (stack : ℕ)

/-- `Solutions.findMissing`. -/
def findMissing (issue master : ConceptNetwork) :
    Option (List ConceptRef × List ConceptRef) := do
  let issueMissing ← issue.nodes.filterM fun iC => do
    let matching ← master.nodes.filterM fun mC => heap.hasExactGeneralisationRec stack iC mC
    return matching.length ≤ 0
  let masterMissing ← master.nodes.filterM fun mC => do
    let matching ← issue.nodes.filterM fun iC => heap.hasExactGeneralisationRec stack iC mC
    return matching.length ≤ 0
  return (issueMissing, masterMissing)

/-- `Constant.IssueMissingFactor`. -/
def issueMissingFactor : ℚ := 1 / 10

/-- `Constant.DomainMissingFactor`. -/
def domainMissingFactor : ℚ := 1

/-- `Solutions.relevance`. -/
def relevance (issue master : ConceptNetwork) : Option ℚ := do
  let missingLists ← findMissing heap stack issue master
  return missingLists.1.length * issueMissingFactor + missingLists.2.length * domainMissingFactor

/-- `Solutions.CNMinusList`: the issue without one of its nodes. -/
def cnMinusList (issue : ConceptNetwork) : List ConceptNetwork :=
  issue.nodes.map fun n => { issue with nodes := issue.nodes.filter fun p => p ≠ n }

/-- The loop of `searchNotEffective` that files the solutions under their relevance. -/
def foundSolutionsMap (solutions : List SolvedIssue) (issue : ConceptNetwork) :
    Except SearchFailure (InsertionMap ℚ SolvedIssue) :=
  solutions.foldlM (fun map s =>
    match relevance heap stack issue (heap.network s.issue) with
    | some r => .ok (map.insert r s)
    | none => .error .stackOverflow) .empty

/-- `found_solutions_map.minBy(_._1)._2`. -/
def minByRelevance (map : InsertionMap ℚ SolvedIssue) : Except SearchFailure SolvedIssue :=
  match map.entries.argmin Prod.fst with
  | some entry => .ok entry.2
  | none => .error (.unsupportedOperation "empty.minBy")

/-- `Solutions.searchNotEffective`. The retry with reduced issues is for the case that
nothing has been found, which does not occur. -/
def searchNotEffective (solutions : List SolvedIssue) (badSolutions : List NetworkRef) :
    ℕ → ConceptNetwork → Except SearchFailure (List SolvedIssue)
  | 0, issue => do
      let map ← foundSolutionsMap heap stack solutions issue
      let found ← minByRelevance map
      return [found]
  | errors + 1, issue => do
      let map ← foundSolutionsMap heap stack solutions issue
      let found ← minByRelevance map
      let foundSolutions := [found]
      if ¬ foundSolutions.isEmpty then return foundSolutions
      else
        let results ← (cnMinusList issue).mapM (searchNotEffective solutions badSolutions errors)
        match results with
        | [] => throw (.unsupportedOperation "empty.reduceLeft")
        | first :: rest => return rest.foldl (· ++ ·) first

/-- The number of nodes of the issue of a solution. -/
def issueSize (s : SolvedIssue) : ℕ := (heap.network s.issue).nodes.length

/-- `Solutions.search`. -/
def search (solutions : List SolvedIssue) (issue : ConceptNetwork)
    (badSolutions : List NetworkRef) : Except SearchFailure (Option SolvedIssue) := do
  let res ← searchNotEffective heap stack solutions badSolutions 1 issue
  if res.length = 0 then return none
  else return (res.mergeSort fun s t => ¬ issueSize heap t < issueSize heap s).head?

/-- The relevance of a stored solution to the issue, where it can be computed. -/
def relevanceOf (issue : ConceptNetwork) (s : SolvedIssue) : ℚ :=
  (relevance heap stack issue (heap.network s.issue)).getD 0

/-- The result is a stored solution that is not rejected, of the lowest relevance among
these and of the fewest issue nodes among those of equal relevance; and there is no
result exactly when every stored solution is rejected. -/
structure IsOptimal (solutions : List SolvedIssue) (issue : ConceptNetwork)
    (badSolutions : List NetworkRef) (result : Option SolvedIssue) : Prop where
  stored : ∀ s, result = some s → s ∈ solutions
  accepted : ∀ s, result = some s → s.issue ∉ badSolutions
  minimal : ∀ s, result = some s → ∀ x ∈ solutions, x.issue ∉ badSolutions →
    relevanceOf heap stack issue s ≤ relevanceOf heap stack issue x
  fewest : ∀ s, result = some s → ∀ x ∈ solutions, x.issue ∉ badSolutions →
    relevanceOf heap stack issue x = relevanceOf heap stack issue s →
      issueSize heap s ≤ issueSize heap x
  none_iff : result = none ↔ ∀ x ∈ solutions, x.issue ∈ badSolutions

/-- Solution `s` stands at the last place of the lowest relevance in the store. -/
def LastOfLowest (solutions : List SolvedIssue) (issue : ConceptNetwork) (s : SolvedIssue) :
    Prop :=
  ∃ before after, solutions = before ++ s :: after ∧
    (∀ x ∈ before, relevanceOf heap stack issue s ≤ relevanceOf heap stack issue x) ∧
    ∀ x ∈ after, relevanceOf heap stack issue s < relevanceOf heap stack issue x

/-- The relevance of every stored solution can be computed, and the last stored solution
of the lowest relevance is not rejected and has no more issue nodes than any other
solution of that relevance that is not rejected. -/
def BestIsFound (solutions : List SolvedIssue) (issue : ConceptNetwork)
    (badSolutions : List NetworkRef) : Prop :=
  (∀ s ∈ solutions, (relevance heap stack issue (heap.network s.issue)).isSome) ∧
    ∃ s, LastOfLowest heap stack solutions issue s ∧ s.issue ∉ badSolutions ∧
      ∀ x ∈ solutions, x.issue ∉ badSolutions →
        relevanceOf heap stack issue x = relevanceOf heap stack issue s →
          issueSize heap s ≤ issueSize heap x

variable {heap stack} {solutions : List SolvedIssue} {issue : ConceptNetwork}
  {badSolutions : List NetworkRef}

/-- The map is complete exactly when every relevance can be computed. -/
theorem foundSolutionsMap_eq_ok_iff {map : InsertionMap ℚ SolvedIssue} :
    foundSolutionsMap heap stack solutions issue = .ok map ↔
      (∀ s ∈ solutions, (relevance heap stack issue (heap.network s.issue)).isSome) ∧
        map = .ofKeyed (relevanceOf heap stack issue) solutions := by
  unfold foundSolutionsMap InsertionMap.ofKeyed
  generalize InsertionMap.empty = start
  induction solutions generalizing start with
  | nil =>
    constructor
    · intro same
      cases same
      exact ⟨List.forall_mem_nil _, rfl⟩
    · rintro ⟨-, rfl⟩
      rfl
  | cons s rest ih =>
    rw [List.foldlM_cons, List.forall_mem_cons, List.foldl_cons]
    cases computed : relevance heap stack issue (heap.network s.issue) with
    | none =>
      constructor
      · exact fun same => nomatch same
      · rintro ⟨⟨defined, -⟩, -⟩
        cases defined
    | some r =>
      have value : relevanceOf heap stack issue s = r := by rw [relevanceOf, computed]; rfl
      rw [value]
      refine (ih (start.insert r s)).trans (and_congr_left fun _ => ?_)
      exact (and_iff_right rfl).symm

/-- The entry of the lowest key holds the last solution of the lowest relevance. -/
theorem lastOfLowest_of_mem_argmin {entry : ℚ × SolvedIssue}
    (lowest : entry ∈ (InsertionMap.ofKeyed (relevanceOf heap stack issue)
      solutions).entries.argmin Prod.fst) :
    LastOfLowest heap stack solutions issue entry.2 := by
  obtain ⟨k, s⟩ := entry
  obtain ⟨rfl, before, after, split, later⟩ :=
    InsertionMap.mem_entries_ofKeyed.mp (List.argmin_mem lowest)
  have least : ∀ x ∈ solutions,
      relevanceOf heap stack issue s ≤ relevanceOf heap stack issue x := by
    intro x member
    have key : relevanceOf heap stack issue x ∈
        (InsertionMap.ofKeyed (relevanceOf heap stack issue) solutions).keys :=
      InsertionMap.mem_keys_ofKeyed.mpr ⟨x, member, rfl⟩
    obtain ⟨entry, present, same⟩ := List.mem_map.mp key
    rw [← same]
    exact List.le_of_mem_argmin present lowest
  refine ⟨before, after, split, fun x member => least x ?_, fun x member => ?_⟩
  · rw [split]
    exact List.mem_append_left _ member
  · have below := least x (by rw [split]; exact List.mem_append_right _ (by simp [member]))
    exact lt_of_le_of_ne below fun same => later x member same.symm

theorem LastOfLowest.mem {s : SolvedIssue} (h : LastOfLowest heap stack solutions issue s) :
    s ∈ solutions := by
  obtain ⟨before, after, rfl, -⟩ := h
  simp

theorem LastOfLowest.le {s x : SolvedIssue} (h : LastOfLowest heap stack solutions issue s)
    (member : x ∈ solutions) :
    relevanceOf heap stack issue s ≤ relevanceOf heap stack issue x := by
  obtain ⟨before, after, rfl, earlier, later⟩ := h
  rcases List.mem_append.mp member with inside | rest
  · exact earlier x inside
  rcases List.mem_cons.mp rest with rfl | inside
  · exact le_rfl
  · exact (later x inside).le

/-- At most one solution is the last one of the lowest relevance. -/
theorem LastOfLowest.unique {s t : SolvedIssue} (hs : LastOfLowest heap stack solutions issue s)
    (ht : LastOfLowest heap stack solutions issue t) : s = t := by
  have same : relevanceOf heap stack issue s = relevanceOf heap stack issue t :=
    le_antisymm (hs.le ht.mem) (ht.le hs.mem)
  have entry : ∀ {u}, LastOfLowest heap stack solutions issue u →
      (relevanceOf heap stack issue u, u) ∈
        (InsertionMap.ofKeyed (relevanceOf heap stack issue) solutions).entries := by
    rintro u ⟨before, after, split, -, later⟩
    exact InsertionMap.mem_entries_ofKeyed.mpr
      ⟨rfl, before, after, split, fun b member => (later b member).ne'⟩
  exact InsertionMap.eq_of_mem_entries (entry hs) (same ▸ entry ht)

theorem ok_bind {α β : Type} (a : α) (f : α → Except SearchFailure β) :
    (Except.ok a >>= f) = f a := rfl

/-- The retry is never taken. -/
theorem searchNotEffective_eq (errors : ℕ) :
    searchNotEffective heap stack solutions badSolutions errors issue = (do
      let map ← foundSolutionsMap heap stack solutions issue
      let found ← minByRelevance map
      return [found]) := by
  cases errors with
  | zero => rfl
  | succ errors => rfl

/-- The search returns the last stored solution of the lowest relevance, when there is
one and every relevance can be computed; otherwise it raises an exception. -/
theorem search_eq_ok_iff {result : Option SolvedIssue} :
    search heap stack solutions issue badSolutions = .ok result ↔
      (∀ s ∈ solutions, (relevance heap stack issue (heap.network s.issue)).isSome) ∧
        ∃ s, LastOfLowest heap stack solutions issue s ∧ result = some s := by
  unfold search
  rw [searchNotEffective_eq]
  cases mapped : foundSolutionsMap heap stack solutions issue with
  | error e =>
    constructor
    · exact fun same => nomatch same
    · rintro ⟨defined, -⟩
      have complete := foundSolutionsMap_eq_ok_iff.mpr ⟨defined, rfl⟩
      rw [mapped] at complete
      cases complete
  | ok map =>
    obtain ⟨defined, rfl⟩ := foundSolutionsMap_eq_ok_iff.mp mapped
    rw [ok_bind, minByRelevance]
    cases lowest : (InsertionMap.ofKeyed (relevanceOf heap stack issue)
        solutions).entries.argmin Prod.fst with
    | none =>
      constructor
      · exact fun same => nomatch same
      · rintro ⟨-, s, last, -⟩
        have key : relevanceOf heap stack issue s ∈
            (InsertionMap.ofKeyed (relevanceOf heap stack issue) solutions).keys :=
          InsertionMap.mem_keys_ofKeyed.mpr ⟨s, last.mem, rfl⟩
        -- a map with a key has a lowest one
        rw [InsertionMap.keys, List.argmin_eq_none.mp lowest] at key
        cases key
    | some entry =>
      have last := lastOfLowest_of_mem_argmin (Option.mem_def.mpr lowest)
      have sorted : ([entry.2].mergeSort fun s t =>
          ¬ issueSize heap t < issueSize heap s).head? = some entry.2 := by
        rw [List.mergeSort_singleton, List.head?_cons]
      constructor
      · intro same
        obtain rfl := (Except.ok.inj same).symm.trans sorted
        exact ⟨defined, entry.2, last, rfl⟩
      · rintro ⟨-, s, other, rfl⟩
        rw [← last.unique other]
        exact congrArg Except.ok sorted

/-- The search returns an optimal result exactly when the best solution is the one found. -/
theorem search_isOptimal_iff (heap : Heap) (stack : ℕ) (solutions : List SolvedIssue)
    (issue : ConceptNetwork) (badSolutions : List NetworkRef) :
    (∃ result, search heap stack solutions issue badSolutions = .ok result ∧
      IsOptimal heap stack solutions issue badSolutions result) ↔
      BestIsFound heap stack solutions issue badSolutions := by
  constructor
  · rintro ⟨result, found, optimal⟩
    obtain ⟨defined, s, last, rfl⟩ := search_eq_ok_iff.mp found
    exact ⟨defined, s, last, optimal.accepted s rfl, optimal.fewest s rfl⟩
  · rintro ⟨defined, s, last, accepted, fewest⟩
    refine ⟨some s, search_eq_ok_iff.mpr ⟨defined, s, last, rfl⟩, ?_⟩
    constructor
    case stored =>
      rintro _ ⟨⟩
      exact last.mem
    case accepted =>
      rintro _ ⟨⟩
      exact accepted
    case minimal =>
      rintro _ ⟨⟩ x member -
      exact last.le member
    case fewest =>
      rintro _ ⟨⟩
      exact fewest
    case none_iff =>
      constructor
      · exact fun none => nomatch none
      · exact fun rejected => absurd (rejected s last.mem) accepted

/-- An empty store: there is no solution, and the search raises an exception. -/
theorem search_empty_store_fails :
    ¬ ∃ result, search default 1 [] {} [] = .ok result ∧
      IsOptimal default 1 [] {} [] result := by
  rintro ⟨result, found, -⟩
  obtain ⟨-, s, last, -⟩ := search_eq_ok_iff.mp found
  cases last.mem

end Solutions

end ThinkingUnderstanding
