import Mathlib.Tactic.Linarith
import ThinkingUnderstanding.Solutions.Search

/-!
# Does the search tell solutions apart?

A solution should be found by what its issue has in common with the one asked about. The
comparison of two concepts, `Concept.hasExactGeneralisationRec`, is the same for every
second argument, so the relevance of a solution only tells whether its issue has nodes at
all. Among the solutions that agree with the searched issue in this the last one wins,
related to the issue or not.

## Main definitions

* `InstancesOfSame` — the concepts of two issues are instances of the same concepts
* `Unrelated` — the concepts of two issues have no ancestor in common
* `Discriminates` — a matching solution keeps an unrelated one from being found
* `lastOfSameExtent` — the solution the search returns

## Main results

* `relevance_eq` — the relevance of a solution, computed
* `search_discriminates_iff` — when the search discriminates
-/

namespace ThinkingUnderstanding

open Math Relation

namespace Solutions

variable (heap : Heap) (stack : ℕ)

/-- Two concepts are instances of the same concepts, and of at least one. -/
def SameGeneralisations (c d : ConceptRef) : Prop :=
  heap.generalisationsList c ≠ [] ∧
    ∀ g, g ∈ heap.generalisationsList c ↔ g ∈ heap.generalisationsList d

/-- Every concept of each issue is an instance of the same concepts as one of the other. -/
structure InstancesOfSame (issue master : ConceptNetwork) : Prop where
  found : ∀ c ∈ issue.nodes, ∃ d ∈ master.nodes, SameGeneralisations heap c d
  needed : ∀ d ∈ master.nodes, ∃ c ∈ issue.nodes, SameGeneralisations heap c d

/-- No concept of the one issue has itself or an ancestor in common with one of the other. -/
def Unrelated (issue master : ConceptNetwork) : Prop :=
  ∀ c ∈ issue.nodes, ∀ d ∈ master.nodes, ∀ ancestor,
    heap.Ancestor c ancestor → ¬ heap.Ancestor d ancestor

/-- With a solution in the store whose issue matches the searched one, no unrelated
solution is found. -/
def Discriminates (solutions : List SolvedIssue) (issue : ConceptNetwork) : Prop :=
  ∀ s ∈ solutions, InstancesOfSame heap issue (heap.network s.issue) →
    ∀ t ∈ solutions, Unrelated heap issue (heap.network t.issue) →
      search heap stack solutions issue [] ≠ .ok (some t)

/-- Some pair of concepts is too deep in the hierarchy for the stack. -/
def Overflows (issue master : ConceptNetwork) : Prop :=
  ∃ iC ∈ issue.nodes, ∃ mC ∈ master.nodes,
    HasWalk heap.generalisationsList (stack + 1) mC ∨ HasWalk heap.generalisationsList stack iC

/-- The issue of a solution has nodes exactly when the searched issue has. -/
def sameExtent (issue : ConceptNetwork) (s : SolvedIssue) : Bool :=
  (heap.network s.issue).nodes.isEmpty = issue.nodes.isEmpty

/-- The last stored solution that agrees with the issue in having nodes. -/
def lastOfSameExtent (solutions : List SolvedIssue) (issue : ConceptNetwork) :
    Option SolvedIssue :=
  (solutions.filter (sameExtent heap issue)).getLast?

variable {heap stack} {solutions : List SolvedIssue} {issue master : ConceptNetwork}

theorem not_overflows_iff :
    ¬ Overflows heap stack issue master ↔ ∀ iC ∈ issue.nodes, ∀ mC ∈ master.nodes,
      (heap.hasExactGeneralisationRec stack iC mC).isSome := by
  unfold Overflows
  push Not
  exact forall₂_congr fun iC _ => forall₂_congr fun mC _ =>
    Heap.isSome_hasExactGeneralisationRec_iff.symm

/-- Either half of `findMissing`: what matches nothing on the other side. -/
def missing (compare : ConceptRef → ConceptRef → Option Bool) (cs ds : List ConceptRef) :
    Option (List ConceptRef) :=
  cs.filterM fun c => do
    let matching ← ds.filterM fun d => compare c d
    return matching.length ≤ 0

theorem findMissing_eq :
    findMissing heap stack issue master = (do
      let issueMissing ← missing (heap.hasExactGeneralisationRec stack) issue.nodes master.nodes
      let masterMissing ← missing (fun mC iC => heap.hasExactGeneralisationRec stack iC mC)
        master.nodes issue.nodes
      return (issueMissing, masterMissing)) := rfl

theorem isSome_missing_iff (compare : ConceptRef → ConceptRef → Option Bool)
    (cs ds : List ConceptRef) :
    (missing compare cs ds).isSome ↔ ∀ c ∈ cs, ∀ d ∈ ds, (compare c d).isSome := by
  rw [missing, isSome_filterM_iff]
  apply forall₂_congr
  intro c _
  rw [← isSome_filterM_iff]
  cases ds.filterM (compare c) <;> rfl

/-- Nothing is missing of what matches everything, unless there is nothing to match. -/
theorem missing_eq_some {compare : ConceptRef → ConceptRef → Option Bool}
    {cs ds : List ConceptRef} (same : ∀ c ∈ cs, ∀ d ∈ ds, compare c d = some true) :
    missing compare cs ds = some (if ds.isEmpty then cs else []) := by
  have value : ∀ c ∈ cs, (do
      let matching ← ds.filterM fun d => compare c d
      return decide (matching.length ≤ 0)) = some ds.isEmpty := by
    intro c member
    rw [filterM_eq_some (same c member), List.filter_true]
    cases ds <;> rfl
  rw [missing, filterM_eq_some value]
  cases ds.isEmpty <;> simp

/-- Every pair of concepts is compared, so one overflow ends the comparison. -/
theorem isSome_relevance_iff :
    (relevance heap stack issue master).isSome ↔ ¬ Overflows heap stack issue master := by
  have forward := isSome_missing_iff (heap.hasExactGeneralisationRec stack) issue.nodes
    master.nodes
  have backward := isSome_missing_iff
    (fun mC iC => heap.hasExactGeneralisationRec stack iC mC) master.nodes issue.nodes
  rw [← not_overflows_iff] at forward
  rw [forall₂_comm, ← not_overflows_iff] at backward
  rw [relevance, findMissing_eq]
  cases first : missing (heap.hasExactGeneralisationRec stack) issue.nodes master.nodes with
  | none =>
    rw [first] at forward
    exact forward
  | some issueMissing =>
    rw [← backward]
    cases missing (fun mC iC => heap.hasExactGeneralisationRec stack iC mC) master.nodes
      issue.nodes <;> rfl

/-- The relevance of a solution to an issue of instances: nothing is missing unless one of
the two has no nodes. -/
theorem relevance_eq (instances : ∀ c ∈ issue.nodes, heap.generalisationsList c ≠ [])
    (fits : ¬ Overflows heap stack issue master) :
    relevance heap stack issue master =
      some ((if master.nodes.isEmpty then issue.nodes else []).length * issueMissingFactor +
        (if issue.nodes.isEmpty then master.nodes else []).length * domainMissingFactor) := by
  have matched : ∀ iC ∈ issue.nodes, ∀ mC ∈ master.nodes,
      heap.hasExactGeneralisationRec stack iC mC = some true := by
    intro iC hi mC hm
    rw [Heap.hasExactGeneralisationRec_eq (not_overflows_iff.mp fits iC hi mC hm),
      decide_eq_true (instances iC hi)]
  rw [relevance, findMissing_eq, missing_eq_some matched,
    missing_eq_some fun mC hm iC hi => matched iC hi mC hm]
  rfl

variable {s : SolvedIssue}

theorem relevanceOf_nonneg : 0 ≤ relevanceOf heap stack issue s := by
  rw [relevanceOf]
  cases value : relevance heap stack issue (heap.network s.issue) with
  | none => exact le_rfl
  | some r =>
    obtain ⟨missingLists, -, same⟩ := Option.bind_eq_some_iff.mp value
    obtain rfl := Option.some.inj same
    rw [Option.getD_some, issueMissingFactor, domainMissingFactor]
    positivity

/-- Relevance zero, the best there is, says no more than that both issues have nodes or
that neither has. -/
theorem relevanceOf_eq_zero_iff (instances : ∀ c ∈ issue.nodes, heap.generalisationsList c ≠ [])
    (fits : ¬ Overflows heap stack issue (heap.network s.issue)) :
    relevanceOf heap stack issue s = 0 ↔ sameExtent heap issue s := by
  rw [relevanceOf, relevance_eq instances fits, sameExtent, Option.getD_some, issueMissingFactor,
    domainMissingFactor]
  cases issue.nodes with
  | nil =>
    cases (heap.network s.issue).nodes with
    | nil => simp
    | cons d ds =>
      simp
      positivity
  | cons c cs =>
    cases (heap.network s.issue).nodes with
    | nil =>
      simp
      positivity
    | cons d ds => simp

theorem lastOfSameExtent_eq_some_iff :
    lastOfSameExtent heap solutions issue = some s ↔ sameExtent heap issue s ∧
      ∃ before after, solutions = before ++ s :: after ∧ ∀ x ∈ after, ¬ sameExtent heap issue x := by
  rw [lastOfSameExtent, ← List.head?_reverse, ← List.filter_reverse, List.head?_filter,
    List.find?_eq_some_iff_append]
  apply and_congr_right
  intro _
  constructor
  · rintro ⟨after, before, split, later⟩
    refine ⟨before.reverse, after.reverse, ?_, fun x member => ?_⟩
    · rw [← List.reverse_reverse solutions, split]
      simp
    · simpa using later x (List.mem_reverse.mp member)
  · rintro ⟨before, after, rfl, later⟩
    refine ⟨after.reverse, before.reverse, by simp, fun x member => ?_⟩
    simpa using later x (List.mem_reverse.mp member)

/-- The search returns the last solution that agrees with the issue in having nodes. -/
theorem lastOfLowest_of_lastOfSameExtent
    (instances : ∀ c ∈ issue.nodes, heap.generalisationsList c ≠ [])
    (fits : ∀ x ∈ solutions, ¬ Overflows heap stack issue (heap.network x.issue))
    (last : lastOfSameExtent heap solutions issue = some s) :
    LastOfLowest heap stack solutions issue s := by
  obtain ⟨same, before, after, rfl, later⟩ := lastOfSameExtent_eq_some_iff.mp last
  have zero : relevanceOf heap stack issue s = 0 :=
    (relevanceOf_eq_zero_iff instances (fits s (by simp))).mpr same
  refine ⟨before, after, rfl, fun x _ => zero ▸ relevanceOf_nonneg, fun x member => ?_⟩
  have inside : x ∈ before ++ s :: after := by simp [member]
  rw [zero]
  apply lt_of_le_of_ne relevanceOf_nonneg
  intro vanishes
  exact later x member ((relevanceOf_eq_zero_iff instances (fits x inside)).mp vanishes.symm)

theorem InstancesOfSame.instances (same : InstancesOfSame heap issue master) :
    ∀ c ∈ issue.nodes, heap.generalisationsList c ≠ [] := by
  intro c member
  obtain ⟨d, -, some, -⟩ := same.found c member
  exact some

/-- Issues of instances of the same concepts both have nodes, or neither has. -/
theorem InstancesOfSame.sameExtent
    (same : InstancesOfSame heap issue (heap.network s.issue)) : sameExtent heap issue s := by
  have both : (heap.network s.issue).nodes = [] ↔ issue.nodes = [] := by
    constructor
    · intro empty
      apply List.eq_nil_iff_forall_not_mem.mpr
      intro c member
      obtain ⟨d, inside, -⟩ := same.found c member
      rw [empty] at inside
      cases inside
    · intro empty
      apply List.eq_nil_iff_forall_not_mem.mpr
      intro d member
      obtain ⟨c, inside, -⟩ := same.needed d member
      rw [empty] at inside
      cases inside
  rw [Solutions.sameExtent, decide_eq_true_iff, Bool.eq_iff_iff, List.isEmpty_iff, List.isEmpty_iff]
  exact both

/-- With a matching solution in the store, and no overflow, the search returns the last
solution that agrees with the issue in having nodes. -/
theorem search_eq_lastOfSameExtent (member : s ∈ solutions)
    (same : InstancesOfSame heap issue (heap.network s.issue))
    (fits : ∀ x ∈ solutions, ¬ Overflows heap stack issue (heap.network x.issue)) :
    search heap stack solutions issue [] = .ok (lastOfSameExtent heap solutions issue) := by
  obtain ⟨t, last⟩ : ∃ t, lastOfSameExtent heap solutions issue = some t := by
    rw [lastOfSameExtent, ← Option.isSome_iff_exists, List.getLast?_isSome]
    exact List.ne_nil_of_mem (List.mem_filter.mpr ⟨member, same.sameExtent⟩)
  apply search_eq_ok_iff.mpr
  refine ⟨fun x inside => isSome_relevance_iff.mpr (fits x inside), t, ?_, last⟩
  exact lastOfLowest_of_lastOfSameExtent same.instances fits last

/-- A stack overflow ends the search. -/
theorem search_ne_ok_of_overflows (member : s ∈ solutions)
    (overflow : Overflows heap stack issue (heap.network s.issue)) (result : Option SolvedIssue) :
    search heap stack solutions issue [] ≠ .ok result := by
  intro found
  obtain ⟨defined, -⟩ := search_eq_ok_iff.mp found
  exact isSome_relevance_iff.mp (defined s member) overflow

/-- The search discriminates exactly when no stored solution matches, when the hierarchy
of some stored solution is too deep for the stack, or when the last stored solution that
agrees with the issue in having nodes happens to be related to it. -/
theorem search_discriminates_iff (heap : Heap) (stack : ℕ) (solutions : List SolvedIssue)
    (issue : ConceptNetwork) :
    Discriminates heap stack solutions issue ↔
      ((∃ s ∈ solutions, InstancesOfSame heap issue (heap.network s.issue)) →
        (∃ x ∈ solutions, Overflows heap stack issue (heap.network x.issue)) ∨
          ∀ t, lastOfSameExtent heap solutions issue = some t →
            ¬ Unrelated heap issue (heap.network t.issue)) := by
  constructor
  · rintro discriminates ⟨s, member, same⟩
    by_contra neither
    push Not at neither
    obtain ⟨fits, t, last, unrelated⟩ := neither
    have inside : t ∈ solutions := (List.mem_filter.mp (List.mem_of_getLast? last)).1
    apply discriminates s member same t inside unrelated
    rw [search_eq_lastOfSameExtent member same fits, last]
  · intro condition s member same t inside unrelated found
    by_cases overflow : ∃ x ∈ solutions, Overflows heap stack issue (heap.network x.issue)
    · obtain ⟨x, stored, overflow⟩ := overflow
      exact search_ne_ok_of_overflows stored overflow _ found
    · have related := (condition ⟨s, member, same⟩).resolve_left overflow
      push Not at overflow
      rw [search_eq_lastOfSameExtent member same overflow] at found
      exact related t (Except.ok.inj found) unrelated

/-! ### Two kinds of issues -/

/-- Concepts 1 and 2 are instances of concept 0, and concept 4 is one of concept 3. -/
def twoKinds : Heap where
  concepts := .ofList [{ uri := 0 }, { uri := 1, generalisations := some 0 },
    { uri := 2, generalisations := some 1 }, { uri := 3 }, { uri := 4, generalisations := some 2 }]
  uris := .ofList [{ name := "Problem" }, { name := "Problem1" }, { name := "Problem2" },
    { name := "Request" }, { name := "Request1" }]
  conceptLines := .ofList [({} : TypedKLine ConceptRef).add 0 0,
    ({} : TypedKLine ConceptRef).add 0 0, ({} : TypedKLine ConceptRef).add 3 3]
  networks := .ofList [{ nodes := [1] }, { nodes := [2] }, { nodes := [4] }]

/-- The solution stored last is returned, although its issue has nothing to do with the
one asked about and another stored issue is an instance of the same concept. -/
theorem unrelated_solution_found : ¬ Discriminates twoKinds 10 [⟨0, 1⟩, ⟨1, 2⟩] { nodes := [1] } := by
  have matching : InstancesOfSame twoKinds { nodes := [1] } (twoKinds.network 1) := by
    have same : SameGeneralisations twoKinds 1 2 := ⟨by decide, fun g => Iff.rfl⟩
    constructor
    · intro c member
      obtain rfl := List.mem_singleton.mp member
      exact ⟨2, List.mem_singleton_self 2, same⟩
    · intro d member
      obtain rfl := List.mem_singleton.mp member
      exact ⟨1, List.mem_singleton_self 1, same⟩
  have unrelated : Unrelated twoKinds { nodes := [1] } (twoKinds.network 2) := by
    intro c hc d hd ancestor up other
    obtain rfl := List.mem_singleton.mp hc
    obtain rfl := List.mem_singleton.mp hd
    have left : ancestor ∈ [1, 0] := up.mem_of_closed (by decide) (by decide)
    have right : ancestor ∈ [4, 3] := other.mem_of_closed (by decide) (by decide)
    have apart : ∀ a ∈ [1, 0], a ∉ [4, 3] := by decide
    exact apart ancestor left right
  have fits : ∀ x ∈ ([⟨0, 1⟩, ⟨1, 2⟩] : List SolvedIssue),
      ¬ Overflows twoKinds 10 { nodes := [1] } (twoKinds.network x.issue) := by
    intro x member
    rw [not_overflows_iff]
    revert x
    decide +kernel
  intro discriminates
  -- the solution for the other kind has an issue of the same size, and comes later
  apply discriminates ⟨0, 1⟩ (by decide) matching ⟨1, 2⟩ (by decide) unrelated
  rw [search_eq_lastOfSameExtent (List.mem_cons_self : ⟨0, 1⟩ ∈ _) matching fits]
  rfl

end Solutions

end ThinkingUnderstanding
