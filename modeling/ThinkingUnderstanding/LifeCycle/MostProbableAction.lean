import Mathlib.Data.Finset.Card
import Mathlib.Data.List.Sort
import ThinkingUnderstanding.Context.Knowledge

/-!
# Choosing actions one by one

`FindMostProbableAction` picks, of the classification results that have not been checked,
one of the highest frequency, and reports it as checked. Its output goes into the global
context through `mergeWithBaseContext`, which unites the lists: the results that have been
picked stay among the classification results, and among the checked ones.

So every unchecked result is picked once, in the order of frequency. Once there is none
left the action takes the tail of an empty list, unless there have never been any results.

## Main definitions

* `FindMostProbableAction.apply` — the action, nothing when it raises an exception
* `FindMostProbableAction.chosen` — what the action chooses in the given round
* `ChosenOneByOne` — the contract of the whole iteration

## Main results

* `exists_chosen_eq` — the rounds until every result has been checked, and those after
* `chosenOneByOne_iff` — the contract is kept when there is nothing to choose
-/

namespace ThinkingUnderstanding

open Math

variable {C P : Type}

namespace FindMostProbableAction

/-- The requests that have not been checked, those of higher frequency first. -/
def candidates (inputContext : ShortTermMemory C P) : List SelectorRequest :=
  (inputContext.classificationResults.filter fun p =>
    p ∉ inputContext.checkedClassificationResults).mergeSort
      fun s t => t.probability.frequency ≤ s.probability.frequency

/-- `FindMostProbableAction.apply`. Nothing is returned when `tail` raises its exception. -/
def apply (inputContext : ShortTermMemory C P) : Option (ShortTermMemory C P) :=
  let outputContext : ShortTermMemory C P := ContextHelper.ofResources []
  if inputContext.classificationResults = [] then
    some ({ outputContext with bestClassificationResult := none }.setLastResult none)
  else
    let sorted := candidates inputContext
    let outputContext := { outputContext with
      classificationResults := sorted
      bestClassificationResult := sorted.head? }
    let outputContext := outputContext.setLastResult (sorted.head?.map .selectorRequest)
    let outputContext :=
      match outputContext.bestClassificationResult with
      | some sR => { outputContext with
          checkedClassificationResults := [sR] ++ outputContext.checkedClassificationResults }
      | none => outputContext
    match outputContext.classificationResults with
    | _ :: tail => some { outputContext with classificationResults := tail }
    | [] => none

variable [DecidableEq C] [DecidableEq P]

/-- One round: the action is applied, and its output is merged into the context. -/
def round (globalContext : ShortTermMemory C P) : Option (ShortTermMemory C P) :=
  (apply globalContext).map fun outputContext =>
    ContextHelper.mergeWithBaseContext globalContext [outputContext]

/-- What is chosen in the round of the given number, unless that round or an earlier one
raises an exception. -/
def chosen : ℕ → ShortTermMemory C P → Option (Option SelectorRequest)
  | 0, globalContext => (apply globalContext).map ShortTermMemory.bestClassificationResult
  | n + 1, globalContext => (round globalContext).bind (chosen n)

end FindMostProbableAction

open FindMostProbableAction

/-- The contract of the iteration: no round raises an exception, the first rounds choose the
unchecked requests, each once, in an order in which the frequency does not increase, and
all later rounds choose nothing. -/
def ChosenOneByOne [DecidableEq C] [DecidableEq P] (globalContext : ShortTermMemory C P) : Prop :=
  ∃ requests : List SelectorRequest, requests.Nodup ∧
    (∀ request, request ∈ requests ↔ request ∈ globalContext.classificationResults ∧
      request ∉ globalContext.checkedClassificationResults) ∧
    requests.Pairwise (fun s t => t.probability.frequency ≤ s.probability.frequency) ∧
    ∀ n, chosen n globalContext = some requests[n]?

namespace FindMostProbableAction

theorem mem_candidates {g : ShortTermMemory C P} {request : SelectorRequest} :
    request ∈ candidates g ↔
      request ∈ g.classificationResults ∧ request ∉ g.checkedClassificationResults := by
  rw [candidates, List.mem_mergeSort, List.mem_filter, decide_eq_true_eq]

/-- The candidates stand in an order in which the frequency does not increase. -/
theorem pairwise_candidates (g : ShortTermMemory C P) :
    (candidates g).Pairwise fun s t => t.probability.frequency ≤ s.probability.frequency :=
  List.pairwise_mergeSort'
    (Order.Preimage (fun s : SelectorRequest => s.probability.frequency) (· ≥ ·)) _

theorem apply_of_nil {g : ShortTermMemory C P} (none_given : g.classificationResults = []) :
    apply g = some (ContextHelper.ofResources []) := by
  rw [apply, if_pos none_given]
  rfl

theorem apply_of_no_candidates {g : ShortTermMemory C P} (given : g.classificationResults ≠ [])
    (checked : candidates g = []) : apply g = none := by
  rw [apply, if_neg given, checked]
  rfl

theorem apply_of_candidates {g : ShortTermMemory C P} {best : SelectorRequest}
    {rest : List SelectorRequest} (sorted : candidates g = best :: rest) :
    apply g = some { (ContextHelper.ofResources [] : ShortTermMemory C P) with
      classificationResults := rest
      bestClassificationResult := some best
      lastResult := some (.selectorRequest best)
      checkedClassificationResults := [best] } := by
  have given : g.classificationResults ≠ [] :=
    List.ne_nil_of_mem (mem_candidates.mp (sorted ▸ List.mem_cons_self)).1
  rw [apply, if_neg given, sorted]
  simp only [List.head?_cons, Option.map_some, ShortTermMemory.setLastResult, List.mem_cons,
    true_or, if_true]
  rfl

variable [DecidableEq C] [DecidableEq P]

/-- A round that picks a request leaves it among the results, and among the checked ones. -/
theorem exists_round_eq {g : ShortTermMemory C P} {best : SelectorRequest}
    {rest : List SelectorRequest} (sorted : candidates g = best :: rest) :
    ∃ g', round g = some g' ∧
      (∀ request, request ∈ g'.classificationResults ↔ request ∈ g.classificationResults) ∧
      ∀ request, request ∈ g'.checkedClassificationResults ↔
        request = best ∨ request ∈ g.checkedClassificationResults := by
  have present : ∀ request ∈ best :: rest, request ∈ g.classificationResults :=
    fun request member => (mem_candidates.mp (sorted ▸ member)).1
  refine ⟨_, by rw [round, apply_of_candidates sorted, Option.map_some], fun request => ?_,
    fun request => ?_⟩
  · rw [ContextHelper.mem_classificationResults_mergeWithBaseContext]
    change request ∈ ContextHelper.mergeList _ rest ∨ some (Resource.selectorRequest best) = _ ↔ _
    rw [ContextHelper.mem_mergeList, Option.some.injEq, Resource.selectorRequest.injEq]
    constructor
    · rintro ((old | later) | same)
      · exact old
      · exact present request (List.mem_cons_of_mem _ later)
      · exact same ▸ present best List.mem_cons_self
    · exact fun old => Or.inl (Or.inl old)
  · rw [ContextHelper.checkedClassificationResults_mergeWithBaseContext]
    change request ∈ ContextHelper.mergeList _ [best] ↔ _
    rw [ContextHelper.mem_mergeList, List.mem_singleton, or_comm]

/-- Until every result has been checked, each round chooses one that has not been, of the
highest frequency there is; from then on every round raises an exception. -/
theorem exists_chosen_eq (g : ShortTermMemory C P) (given : g.classificationResults ≠ []) :
    ∃ requests : List SelectorRequest, requests.Nodup ∧
      (∀ request, request ∈ requests ↔ request ∈ g.classificationResults ∧
        request ∉ g.checkedClassificationResults) ∧
      requests.Pairwise (fun s t => t.probability.frequency ≤ s.probability.frequency) ∧
      (∀ n (inside : n < requests.length), chosen n g = some (some requests[n])) ∧
      ∀ n, requests.length ≤ n → chosen n g = none := by
  -- on the number of results that have not been checked
  generalize count : (candidates g).toFinset.card = unchecked
  induction unchecked using Nat.strong_induction_on generalizing g with
  | _ unchecked ih =>
    subst count
    cases sorted : candidates g with
    | nil =>
      have stopped := apply_of_no_candidates given sorted
      have nothing : ∀ request, ¬ (request ∈ g.classificationResults ∧
          request ∉ g.checkedClassificationResults) := by
        intro request found
        have member := mem_candidates.mpr found
        rw [sorted] at member
        exact List.not_mem_nil member
      refine ⟨[], List.nodup_nil, fun request => ?_, List.Pairwise.nil, nofun, fun n _ => ?_⟩
      · exact iff_of_false List.not_mem_nil (nothing request)
      · cases n with
        | zero => rw [chosen, stopped, Option.map_none]
        | succ n => rw [chosen, round, stopped, Option.map_none, Option.bind_none]
    | cons best rest =>
      obtain ⟨g', next, results, checked⟩ := exists_round_eq sorted
      have best_candidate : best ∈ candidates g := sorted ▸ List.mem_cons_self
      have remaining : ∀ request, request ∈ candidates g' ↔ request ≠ best ∧ request ∈ candidates g := by
        intro request
        rw [mem_candidates, mem_candidates, results, checked]
        tauto
      have fewer : (candidates g').toFinset.card < (candidates g).toFinset.card := by
        apply Finset.card_lt_card
        rw [Finset.ssubset_iff_of_subset fun request member =>
          List.mem_toFinset.mpr ((remaining request).mp (List.mem_toFinset.mp member)).2]
        refine ⟨best, List.mem_toFinset.mpr best_candidate, fun again => ?_⟩
        exact ((remaining best).mp (List.mem_toFinset.mp again)).1 rfl
      have given' : g'.classificationResults ≠ [] :=
        List.ne_nil_of_mem ((results best).mpr (mem_candidates.mp best_candidate).1)
      obtain ⟨requests, nodup, members, descending, first, later⟩ := ih _ fewer g' given' rfl
      have members' : ∀ request, request ∈ requests ↔ request ≠ best ∧ request ∈ candidates g := by
        intro request
        rw [members, ← mem_candidates, remaining]
      refine ⟨best :: requests, ?_, fun request => ?_, ?_, fun n inside => ?_, fun n beyond => ?_⟩
      · exact List.nodup_cons.mpr ⟨fun again => ((members' best).mp again).1 rfl, nodup⟩
      · rw [List.mem_cons, members', ← mem_candidates]
        by_cases same : request = best
        · exact iff_of_true (Or.inl same) (same ▸ best_candidate)
        · simp only [same, false_or, ne_eq, not_false_eq_true, true_and]
      · refine List.pairwise_cons.mpr ⟨fun request member => ?_, descending⟩
        have ordered := pairwise_candidates g
        rw [sorted, List.pairwise_cons] at ordered
        obtain ⟨other, candidate⟩ := (members' request).mp member
        rw [sorted] at candidate
        exact ordered.1 request ((List.mem_cons.mp candidate).resolve_left other)
      · cases n with
        | zero => rw [chosen, apply_of_candidates sorted]; rfl
        | succ n =>
          rw [chosen, next, Option.bind_some, List.getElem_cons_succ]
          exact first n (Nat.lt_of_succ_lt_succ inside)
      · cases n with
        | zero => exact absurd beyond (Nat.not_succ_le_zero _)
        | succ n =>
          rw [chosen, next, Option.bind_some]
          exact later n (Nat.le_of_succ_le_succ beyond)

/-- A round without results leaves the context without results, unless its last result is
a selector request, which becomes one. -/
theorem exists_round_of_nil {g : ShortTermMemory C P} (none_given : g.classificationResults = []) :
    ∃ g', round g = some g' ∧ g'.lastResult = g.lastResult ∧
      ∀ request, request ∈ g'.classificationResults ↔
        g.lastResult = some (.selectorRequest request) := by
  refine ⟨_, by rw [round, apply_of_nil none_given, Option.map_some], ?_, fun request => ?_⟩
  · exact ContextHelper.lastResult_mergeWithBaseContext g [ContextHelper.ofResources []]
  · rw [ContextHelper.mem_classificationResults_mergeWithBaseContext]
    change request ∈ ContextHelper.mergeList g.classificationResults [] ∨ g.lastResult = _ ↔ _
    rw [ContextHelper.mem_mergeList, none_given]
    simp only [List.not_mem_nil, or_self, false_or]

end FindMostProbableAction

/-- The iteration keeps its contract exactly when there is nothing to choose: there are no
classification results, and no selector request as last result is about to become one. -/
theorem chosenOneByOne_iff [DecidableEq C] [DecidableEq P] (g : ShortTermMemory C P) :
    ChosenOneByOne g ↔ g.classificationResults = [] ∧
      ∀ request, g.lastResult ≠ some (.selectorRequest request) := by
  constructor
  · rintro ⟨requests, -, members, -, rounds⟩
    have empty : g.classificationResults = [] := by
      by_contra given
      obtain ⟨requests', -, -, -, -, later⟩ := exists_chosen_eq g given
      have returns := rounds requests'.length
      rw [later _ le_rfl] at returns
      cases returns
    refine ⟨empty, fun request last => ?_⟩
    -- the request becomes a classification result, and the second round is not idle
    obtain ⟨g', next, -, results⟩ := exists_round_of_nil empty
    have pending : g'.classificationResults ≠ [] :=
      List.ne_nil_of_mem ((results request).mpr last)
    have idle : requests = [] := by
      rw [List.eq_nil_iff_forall_not_mem]
      intro r member
      have found := ((members r).mp member).1
      rw [empty] at found
      exact List.not_mem_nil found
    have second := rounds 1
    rw [chosen, next, Option.bind_some, idle, List.getElem?_nil] at second
    obtain ⟨requests', -, -, -, first, later⟩ := exists_chosen_eq g' pending
    rcases Nat.eq_zero_or_pos requests'.length with none_left | some_left
    · rw [later 0 none_left.le] at second
      cases second
    · rw [first 0 some_left] at second
      cases second
  · rintro ⟨empty, settled⟩
    refine ⟨[], List.nodup_nil, fun request => ?_, List.Pairwise.nil, fun n => ?_⟩
    · rw [empty]
      simp only [List.not_mem_nil, false_and]
    · rw [List.getElem?_nil]
      induction n generalizing g with
      | zero => rw [chosen, apply_of_nil empty]; rfl
      | succ n ih =>
        obtain ⟨g', next, last, results⟩ := exists_round_of_nil empty
        rw [chosen, next, Option.bind_some]
        refine ih g' ?_ (last ▸ settled)
        rw [List.eq_nil_iff_forall_not_mem]
        exact fun request member => settled request ((results request).mp member)

/-- A single classification result is chosen in the first round, and the second one
raises an exception. -/
theorem second_choice_raises_exception :
    ¬ ChosenOneByOne ({ classificationResults := [⟨[7], 1, { frequency := 9 / 10 }⟩] } :
      ShortTermMemory ConceptRef PhraseRef) := by
  rintro ⟨requests, -, -, -, rounds⟩
  have second := rounds 1
  have raised : chosen 1 ({ classificationResults := [⟨[7], 1, { frequency := 9 / 10 }⟩] } :
      ShortTermMemory ConceptRef PhraseRef) = none := by decide +kernel
  rw [raised] at second
  cases second

end ThinkingUnderstanding
