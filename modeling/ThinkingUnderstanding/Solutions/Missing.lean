import ThinkingUnderstanding.Solutions.Discrimination

/-!
# Two definitions of what is missing

`Concept.findMissing` and the first half of `Solutions.findMissing` run over the same
comparisons. The one keeps the needles with some match, the other those with none, so the
two lists are complements of each other and agree only when there is nothing to look for.

## Main definitions

* `Concept.findMissing`
* `FindSameMissing` — both return the needles that match nothing

## Main results

* `findMissing_complement` — together the two lists are the needles
* `findSameMissing_iff` — when the definitions agree
-/

namespace ThinkingUnderstanding

open Math

/-- `Concept.findMissing(needles, heap)`, where the heap is a list of concepts. -/
def Concept.findMissing (heap : Heap) (stack : ℕ) (needles concepts : List ConceptRef) :
    Option (List ConceptRef) :=
  needles.filterM fun iC => do
    let matching ← concepts.filterM fun mC => heap.hasExactGeneralisationRec stack iC mC
    return matching.length > 0

namespace Solutions

variable (heap : Heap) (stack : ℕ)

/-- The needle has a generalisation match in the list of concepts. -/
def hasMatch (concepts : List ConceptRef) (iC : ConceptRef) : Bool :=
  concepts.any fun mC => (heap.hasExactGeneralisationRec stack iC mC).getD false

/-- Both definitions return the needles without a match, in their order. -/
def FindSameMissing (issue master : ConceptNetwork) : Prop :=
  ∃ missing, Concept.findMissing heap stack issue.nodes master.nodes = some missing ∧
    (findMissing heap stack issue master).map Prod.fst = some missing ∧
    missing = issue.nodes.filter fun iC => !hasMatch heap stack master.nodes iC

variable {heap stack} {issue master : ConceptNetwork} {needles concepts : List ConceptRef}

/-- What `findMissing` counts for a needle, where no comparison overflows the stack. -/
theorem matching_eq {iC : ConceptRef}
    (fits : ∀ mC ∈ concepts, (heap.hasExactGeneralisationRec stack iC mC).isSome) :
    (concepts.filterM fun mC => heap.hasExactGeneralisationRec stack iC mC) =
      some (concepts.filter fun mC => (heap.hasExactGeneralisationRec stack iC mC).getD false) := by
  apply filterM_eq_some
  intro mC member
  obtain ⟨found, value⟩ := Option.isSome_iff_exists.mp (fits mC member)
  rw [value, Option.getD_some]

theorem hasMatch_eq (iC : ConceptRef) :
    hasMatch heap stack concepts iC = decide ((concepts.filter fun mC =>
      (heap.hasExactGeneralisationRec stack iC mC).getD false).length > 0) := by
  rw [hasMatch, Bool.eq_iff_iff, decide_eq_true_iff, List.any_eq_true, gt_iff_lt,
    List.length_pos_iff_exists_mem]
  simp only [List.mem_filter]

/-- `Concept.findMissing` keeps the needles that do have a match. -/
theorem found_eq
    (fits : ∀ iC ∈ needles, ∀ mC ∈ concepts, (heap.hasExactGeneralisationRec stack iC mC).isSome) :
    Concept.findMissing heap stack needles concepts =
      some (needles.filter (hasMatch heap stack concepts)) := by
  apply filterM_eq_some
  intro iC member
  rw [matching_eq (fits iC member), hasMatch_eq]
  rfl

/-- `Solutions.findMissing` keeps the needles that have none. -/
theorem missing_eq
    (fits : ∀ iC ∈ needles, ∀ mC ∈ concepts, (heap.hasExactGeneralisationRec stack iC mC).isSome) :
    missing (heap.hasExactGeneralisationRec stack) needles concepts =
      some (needles.filter fun iC => !hasMatch heap stack concepts iC) := by
  apply filterM_eq_some
  intro iC member
  rw [matching_eq (fits iC member), hasMatch_eq, ← decide_not]
  simp only [gt_iff_lt, not_lt]
  rfl

/-- The first list of `Solutions.findMissing` is one half of its comparisons: the other
half makes the same ones, and overflows with it. -/
theorem fst_findMissing :
    (findMissing heap stack issue master).map Prod.fst =
      missing (heap.hasExactGeneralisationRec stack) issue.nodes master.nodes := by
  rw [findMissing_eq]
  cases forward : missing (heap.hasExactGeneralisationRec stack) issue.nodes master.nodes with
  | none => rfl
  | some issueMissing =>
    have fits := (isSome_missing_iff _ _ _).mp (Option.isSome_of_eq_some forward)
    have backward := (isSome_missing_iff (fun mC iC => heap.hasExactGeneralisationRec stack iC mC)
      master.nodes issue.nodes).mpr (forall₂_comm.mp fits)
    obtain ⟨masterMissing, value⟩ := Option.isSome_iff_exists.mp backward
    simp [value]

/-- Where the comparisons end, each needle is in exactly one of the two lists. -/
theorem findMissing_complement (fits : ¬ Overflows heap stack issue master) :
    ∃ found missing, Concept.findMissing heap stack issue.nodes master.nodes = some found ∧
      (findMissing heap stack issue master).map Prod.fst = some missing ∧
      found.Disjoint missing ∧ (found ++ missing).Perm issue.nodes := by
  rw [not_overflows_iff] at fits
  refine ⟨_, _, found_eq fits, fst_findMissing.trans (missing_eq fits), ?_, ?_⟩
  · intro iC matched unmatched
    have none := (List.mem_filter.mp unmatched).2
    rw [(List.mem_filter.mp matched).2] at none
    exact Bool.false_ne_true none
  · exact List.filter_append_perm _ _

/-- The two definitions agree exactly when there are no needles. -/
theorem findSameMissing_iff (heap : Heap) (stack : ℕ) (issue master : ConceptNetwork) :
    FindSameMissing heap stack issue master ↔ issue.nodes = [] := by
  constructor
  · rintro ⟨list, first, second, -⟩
    have returned : (missing (heap.hasExactGeneralisationRec stack) issue.nodes
        master.nodes).isSome := by
      rw [← fst_findMissing, second]
      rfl
    have fits : ¬ Overflows heap stack issue master :=
      not_overflows_iff.mpr ((isSome_missing_iff _ _ _).mp returned)
    obtain ⟨found, missing, isFound, isMissing, disjoint, all⟩ := findMissing_complement fits
    -- a list that is disjoint from itself is empty
    obtain rfl : list = found := Option.some.inj (first.symm.trans isFound)
    obtain rfl : list = missing := Option.some.inj (second.symm.trans isMissing)
    have empty : list = [] :=
      List.eq_nil_iff_forall_not_mem.mpr fun _ member => disjoint member member
    rw [empty] at all
    exact all.symm.eq_nil
  · intro empty
    refine ⟨[], ?_, ?_, ?_⟩
    · rw [empty]
      rfl
    · rw [fst_findMissing, empty]
      rfl
    · rw [empty]
      rfl

/-- Concept 3 of `twoKinds` is an instance of nothing: the one definition reports it as
missing, the other as found. -/
theorem unmatched_needle_not_missing :
    ¬ FindSameMissing twoKinds 10 { nodes := [3] } { nodes := [1] } := by
  rintro ⟨list, first, second, -⟩
  have kept : Concept.findMissing twoKinds 10 [3] [1] = some [] := by decide +kernel
  have lost : (findMissing twoKinds 10 { nodes := [3] } { nodes := [1] }).map Prod.fst =
      some [3] := by decide +kernel
  rw [kept] at first
  rw [lost, ← first] at second
  exact absurd second (by decide)

end Solutions

end ThinkingUnderstanding
