import ThinkingUnderstanding.Correlation.MapSearch
import ThinkingUnderstanding.Math.Descent

/-!
# How deep the path searches go

Here both searches run on a stack of bounded depth, as the code does, and have no result
when the calls nest deeper. A call never needs more than `searchBound` further ones: each
call leaves a concept and processes it, and a concept that has been processed is entered
once more only from itself, before it is on the list.

## Main definitions

* `findPathToTargetWithin`, `findMapToTargetWithin` — the searches on a bounded stack

## Main results

* `findPathToTargetWithin_eq_some`, `findMapToTargetWithin_eq_some` — a stack deeper than the
  bound is enough
* `searches_terminate` — the searches return on a stack of a depth that the graph gives
-/

namespace ThinkingUnderstanding.Correlation

open Math

variable (heap : Heap) (targetModel : ConceptNetwork)

/-- `Correlation.findPathToTarget` on a stack of bounded depth. -/
def findPathToTargetWithin :
    ℕ → ConceptRef → List ConceptRef → Option (List ConceptRef)
  | 0, _, _ => none
  | stack + 1, mappingConcept, processedConcepts =>
      match findInTarget heap mappingConcept targetModel with
      | some c => some [c]
      | none =>
          if (heap.linksOf mappingConcept).length > 0 then do
            let linkedConcepts :=
              filterLinksMapConcepts (heap.linksOf mappingConcept) mappingConcept processedConcepts
            let res ← linkedConcepts.mapM fun c =>
              findPathToTargetWithin stack c (processedConcepts ++ [mappingConcept])
            return joinMappings mappingConcept linkedConcepts res
          else some []

/-- `Correlation.findMapToTarget` on a stack of bounded depth. -/
def findMapToTargetWithin :
    ℕ → ConceptRef → List ConceptRef → Option (List ConceptRef)
  | 0, _, _ => none
  | stack + 1, mappingConcept, processedConcepts =>
      match findInTarget heap mappingConcept targetModel with
      | some c => some [c]
      | none =>
          if (heap.linksOf mappingConcept).length > 0 then do
            let filteredLinks :=
              filterLinks (heap.linksOf mappingConcept) mappingConcept processedConcepts
            let intermediateConcepts := filterLinksConcepts filteredLinks mappingConcept
            let res ← intermediateConcepts.mapM fun c =>
              findMapToTargetWithin stack c (processedConcepts ++ [mappingConcept])
            return extendMapping mappingConcept res
          else some [mappingConcept]

variable {heap targetModel} {stack : ℕ} {c : ConceptRef} {processed : List ConceptRef}

/-- A deep enough stack does not change what `findPathToTarget` finds. The induction is on
the stack: a linked concept has a smaller bound. -/
theorem findPathToTargetWithin_eq_some (enough : searchBound heap c processed < stack) :
    findPathToTargetWithin heap targetModel stack c processed =
      some (findPathToTarget heap c targetModel processed) := by
  induction stack generalizing c processed with
  | zero => exact absurd enough (Nat.not_lt_zero _)
  | succ stack ih =>
    have searched : ∀ d ∈ filterLinksMapConcepts (heap.linksOf c) c processed,
        findPathToTargetWithin heap targetModel stack d (processed ++ [c]) =
          some (findPathToTarget heap d targetModel (processed ++ [c])) := by
      intro d step
      have smaller := searchBound_lt heap step
      exact ih (by omega)
    cases inside : findInTarget heap c targetModel with
    | some d =>
      obtain rfl := findInTarget_eq_self heap inside
      rw [findPathToTargetWithin, inside,
        findPathToTarget_of_inTarget heap (Option.isSome_of_eq_some inside)]
    | none =>
      rw [findPathToTargetWithin, inside, findPathToTarget_of_notInTarget heap inside]
      simp only [mapM_eq_some searched]
      split_ifs with linked
      · rfl
      · have none : heap.linksOf c = [] := by simpa using linked
        rw [none]
        rfl

/-- A deep enough stack does not change what `findMapToTarget` finds. -/
theorem findMapToTargetWithin_eq_some (enough : searchBound heap c processed < stack) :
    findMapToTargetWithin heap targetModel stack c processed =
      some (findMapToTarget heap c targetModel processed) := by
  induction stack generalizing c processed with
  | zero => exact absurd enough (Nat.not_lt_zero _)
  | succ stack ih =>
    have searched : ∀ d ∈ opened heap processed c,
        findMapToTargetWithin heap targetModel stack d (processed ++ [c]) =
          some (findMapToTarget heap d targetModel (processed ++ [c])) := by
      intro d step
      have smaller := searchBound_lt_of_opened step
      exact ih (by omega)
    cases inside : findInTarget heap c targetModel with
    | some d =>
      obtain rfl := findInTarget_eq_self heap inside
      rw [findMapToTargetWithin, inside,
        findMapToTarget_of_inTarget (Option.isSome_of_eq_some inside)]
    | none =>
      rw [findMapToTargetWithin, inside, findMapToTarget_of_notInTarget inside]
      simp only [filterLinksConcepts_filterLinks]
      rw [← opened, mapM_eq_some searched]
      split_ifs with linked
      · rfl
      · have none : heap.linksOf c = [] := by simpa using linked
        rw [opened, none]
        rfl

theorem searchBound_le (heap : Heap) (c : ConceptRef) (processed : List ConceptRef) :
    searchBound heap c processed ≤ 2 * heap.linkEnds.toFinset.card + 1 := by
  have fewer : (heap.linkEnds.toFinset \ processed.toFinset).card ≤ heap.linkEnds.toFinset.card :=
    Finset.card_le_card Finset.sdiff_subset
  unfold searchBound
  split_ifs
  · omega
  · omega

/-- On every graph both searches return, whatever the target model, the concept they start
from and the processed concepts are: the calls nest at most twice as deep as there are ends
of links, and two deeper. -/
theorem searches_terminate (heap : Heap) (targetModel : ConceptNetwork) (c : ConceptRef)
    (processed : List ConceptRef) :
    ∃ depth ≤ 2 * heap.linkEnds.toFinset.card + 2, ∀ stack, depth ≤ stack →
      findPathToTargetWithin heap targetModel stack c processed =
          some (findPathToTarget heap c targetModel processed) ∧
        findMapToTargetWithin heap targetModel stack c processed =
          some (findMapToTarget heap c targetModel processed) := by
  have bound := searchBound_le heap c processed
  refine ⟨searchBound heap c processed + 1, by omega, fun stack deep => ?_⟩
  exact ⟨findPathToTargetWithin_eq_some deep, findMapToTargetWithin_eq_some deep⟩

end ThinkingUnderstanding.Correlation
