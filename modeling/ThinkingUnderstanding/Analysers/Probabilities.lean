import ThinkingUnderstanding.Analysers.Analysers

/-!
# Are the results probabilities?

The requests of the analysers are ranked by frequency, so their probabilities should be on one
scale. The frequencies and confidences are set stage by stage. Finding no action, or no problem,
sets the confidence to `1.9`; and counting no problem twice leaves a frequency of `-1`, since only
the analyser of direct instructions replaces a negative frequency by zero.

## Main definitions

* `Probability.InUnitInterval` — frequency and confidence are between zero and one
* `AnalysersReturnProbabilities` — the three analysers return, on one scale

## Main results

* `inUnitInterval_counted_iff`, `inUnitInterval_countedTwice_iff` — the stage that counts
* `analysersReturnProbabilities_iff` — when the results are probabilities
-/

namespace ThinkingUnderstanding

open Math

/-- Frequency and confidence are both between zero and one. -/
structure Probability.InUnitInterval (p : Probability) : Prop where
  frequency : 0 ≤ p.frequency ∧ p.frequency ≤ 1
  confidence : 0 ≤ p.confidence ∧ p.confidence ≤ 1

instance (p : Probability) : Decidable p.InUnitInterval :=
  decidable_of_iff ((0 ≤ p.frequency ∧ p.frequency ≤ 1) ∧ 0 ≤ p.confidence ∧ p.confidence ≤ 1)
    ⟨fun both => ⟨both.1, both.2⟩, fun unit => ⟨unit.frequency, unit.confidence⟩⟩

/-- The analysers return requests for the situation, all with a frequency and a confidence
between zero and one. -/
structure AnalysersReturnProbabilities (heap : Heap) (depth : ℕ)
    (currentSituation : List ConceptRef) : Prop where
  directInstruction :
    (DirectInstructionAnalyser.apply heap currentSituation).probability.InUnitInterval
  problemDescription : ∃ request,
    ProblemDescriptionAnalyser.apply heap depth currentSituation = some request ∧
      request.probability.InUnitInterval
  withDesiredState : ∃ request,
    ProblemDescriptionWithDesiredStateAnalyser.apply heap depth currentSituation = some request ∧
      request.probability.InUnitInterval

theorem inUnitInterval_zero_one : Probability.InUnitInterval ⟨0, 1⟩ := by decide +kernel

/-- Counting leaves a probability exactly when there is something to count. -/
theorem inUnitInterval_counted_iff {actions : List ConceptRef} :
    (counted actions).InUnitInterval ↔ actions ≠ [] := by
  match actions with
  | [] => rw [counted_nil]; decide +kernel
  | [a] => rw [counted_singleton]; exact iff_of_true (by decide +kernel) (by simp)
  | a :: b :: rest => rw [counted_cons_cons]; exact iff_of_true (by decide +kernel) (by simp)

/-- The same holds of counting twice, where the frequency gets negative too. -/
theorem inUnitInterval_countedTwice_iff {actions : List ConceptRef} :
    (countedTwice actions).InUnitInterval ↔ actions ≠ [] := by
  match actions with
  | [] => rw [countedTwice_nil]; decide +kernel
  | [a] => rw [countedTwice_singleton]; exact iff_of_true (by decide +kernel) (by simp)
  | a :: b :: rest => rw [countedTwice_cons_cons]; exact iff_of_true (by decide +kernel) (by simp)

variable {heap : Heap} {currentSituation : List ConceptRef} {depth : ℕ} {name : String}

theorem getNodeByGeneralisationName_ne_nil_iff :
    heap.getNodeByGeneralisationName currentSituation name ≠ [] ↔
      ∃ c ∈ currentSituation, heap.FiledUnder name c := by
  rw [← List.length_pos_iff, List.length_pos_iff_exists_mem]
  simp only [Heap.mem_getNodeByGeneralisationName]

theorem withFiledAbove_ne_nil_iff : heap.withFiledAbove name currentSituation ≠ [] ↔
    ∃ c ∈ currentSituation, heap.FiledAbove name c := by
  rw [← List.length_pos_iff, List.length_pos_iff_exists_mem]
  simp only [Heap.mem_withFiledAbove]

theorem PersonalSubjects.ne_nil (personal : PersonalSubjects heap currentSituation) :
    heap.getNodeByGeneralisationName currentSituation subjectName ≠ [] := by
  rcases personal with many | ⟨subject, one, -⟩
  · exact List.ne_nil_of_length_pos (Nat.zero_lt_of_lt many)
  · rw [one]
    simp

theorem inUnitInterval_directInstruction_iff :
    (DirectInstructionAnalyser.apply heap currentSituation).probability.InUnitInterval ↔
      (ImpersonalSubjects heap currentSituation →
        ∃ c ∈ currentSituation, heap.FiledUnder actionName c) := by
  by_cases impersonal : ImpersonalSubjects heap currentSituation
  · rw [DirectInstructionAnalyser.probability_of_impersonal impersonal,
      inUnitInterval_counted_iff, getNodeByGeneralisationName_ne_nil_iff, imp_iff_right impersonal]
  · have personal := not_not.mp (impersonalSubjects_iff_not.not.mp impersonal)
    rw [DirectInstructionAnalyser.probability_of_personal personal]
    exact iff_of_true inUnitInterval_zero_one fun h => absurd h impersonal

section

variable (fits : ∀ c ∈ currentSituation, ¬ HasWalk heap.generalisationsList depth c)

include fits

theorem inUnitInterval_problemDescription_iff :
    (∃ request, ProblemDescriptionAnalyser.apply heap depth currentSituation = some request ∧
      request.probability.InUnitInterval) ↔
      ((∃ c ∈ currentSituation, heap.FiledUnder subjectName c) →
        ∃ c ∈ currentSituation, heap.FiledAbove problemName c) := by
  rw [← getNodeByGeneralisationName_ne_nil_iff, ← withFiledAbove_ne_nil_iff]
  by_cases given : heap.getNodeByGeneralisationName currentSituation subjectName = []
  · rw [ProblemDescriptionAnalyser.apply_of_nil given]
    exact iff_of_true ⟨_, rfl, inUnitInterval_zero_one⟩ fun some => absurd given some
  · rw [ProblemDescriptionAnalyser.apply_of_ne_nil given fits, imp_iff_right given,
      ← inUnitInterval_counted_iff]
    constructor
    · rintro ⟨_, ⟨⟩, unit⟩
      exact unit
    · exact fun unit => ⟨_, rfl, unit⟩

theorem inUnitInterval_withDesiredState_iff :
    (∃ request,
      ProblemDescriptionWithDesiredStateAnalyser.apply heap depth currentSituation = some request ∧
        request.probability.InUnitInterval) ↔
      (PersonalSubjects heap currentSituation →
        ∃ c ∈ currentSituation, heap.FiledAbove problemName c) := by
  rw [← withFiledAbove_ne_nil_iff]
  by_cases personal : PersonalSubjects heap currentSituation
  · rw [ProblemDescriptionWithDesiredStateAnalyser.apply_of_personal personal,
      Heap.getNodeByGeneralisationNameRec_eq_some fits,
      Heap.getNodeByGeneralisationNameRec_eq_some fits, imp_iff_right personal,
      ← inUnitInterval_countedTwice_iff]
    constructor
    · rintro ⟨_, ⟨⟩, unit⟩
      exact unit
    · exact fun unit => ⟨_, rfl, unit⟩
  · rw [ProblemDescriptionWithDesiredStateAnalyser.apply_of_impersonal
      (impersonalSubjects_iff_not.mpr personal)]
    exact iff_of_true ⟨_, rfl, inUnitInterval_zero_one⟩ fun h => absurd h personal

end

/-- On every stack that is deep enough, the analysers return probabilities exactly for the
situations with an action when there is no subject besides the system, and with a problem when
there is a subject. -/
theorem analysersReturnProbabilities_iff (heap : Heap) (acyclic : heap.AcyclicGeneralisations)
    (currentSituation : List ConceptRef) : ∃ enough, ∀ depth ≥ enough,
      (AnalysersReturnProbabilities heap depth currentSituation ↔
        (ImpersonalSubjects heap currentSituation →
          ∃ c ∈ currentSituation, heap.FiledUnder actionName c) ∧
        ((∃ c ∈ currentSituation, heap.FiledUnder subjectName c) →
          ∃ c ∈ currentSituation, heap.FiledAbove problemName c)) := by
  obtain ⟨enough, short⟩ := acyclic.exists_depth currentSituation
  refine ⟨enough, fun depth deep => ?_⟩
  have fits := short depth deep
  constructor
  · intro returned
    exact ⟨inUnitInterval_directInstruction_iff.mp returned.directInstruction,
      (inUnitInterval_problemDescription_iff fits).mp returned.problemDescription⟩
  · rintro ⟨action, problem⟩
    constructor
    case directInstruction => exact inUnitInterval_directInstruction_iff.mpr action
    case problemDescription => exact (inUnitInterval_problemDescription_iff fits).mpr problem
    case withDesiredState =>
      -- a subject besides the system is a subject, for which there is a problem
      refine (inUnitInterval_withDesiredState_iff fits).mpr fun personal => problem ?_
      exact getNodeByGeneralisationName_ne_nil_iff.mp personal.ne_nil

/-! ### A user and a freeze -/

/-- A user, which is a subject, and a freeze, which is a crash, and so a problem. -/
def userAndFreeze : Heap where
  concepts := .ofList [{ uri := 0 }, { uri := 1 }, { uri := 2, generalisations := some 0 },
    { uri := 3, generalisations := some 1 }, { uri := 4, generalisations := some 2 }]
  uris := .ofList [{ name := "subjectConcept" }, { name := "problem" }, { name := "user" },
    { name := "crash" }, { name := "freeze" }]
  conceptLines := .ofList [({} : TypedKLine ConceptRef).add 0 0,
    ({} : TypedKLine ConceptRef).add 1 1, ({} : TypedKLine ConceptRef).add 3 3]

theorem acyclic_userAndFreeze : userAndFreeze.AcyclicGeneralisations :=
  Heap.acyclicGeneralisations_of_older (by decide +kernel)

/-- A freeze that a user has is a problem above all. -/
theorem freeze_problem : userAndFreeze.FiledAbove problemName 4 :=
  ⟨3, .single (by decide +kernel), (1, 1), by decide +kernel, by decide +kernel⟩

/-- There is a subject, so no action is asked for; and the freeze is found as a problem. -/
theorem userAndFreeze_probabilities : ∃ enough, ∀ depth ≥ enough,
    AnalysersReturnProbabilities userAndFreeze depth [2, 4] := by
  obtain ⟨enough, all⟩ :=
    analysersReturnProbabilities_iff userAndFreeze acyclic_userAndFreeze [2, 4]
  refine ⟨enough, fun depth deep => (all depth deep).mpr ⟨fun impersonal => ?_, fun _ => ?_⟩⟩
  · have personal : PersonalSubjects userAndFreeze [2, 4] :=
      Or.inr ⟨2, by decide +kernel, by decide +kernel⟩
    exact absurd personal (impersonalSubjects_iff_not.mp impersonal)
  · exact ⟨4, by decide, freeze_problem⟩

/-- Nothing above a user is a problem. -/
theorem not_user_problem : ¬ userAndFreeze.FiledAbove problemName 2 := by
  intro problem
  have fits : ∀ c ∈ [2], ¬ HasWalk userAndFreeze.generalisationsList 2 c := by
    intro c member
    have returns : ∀ c ∈ [2], (userAndFreeze.getGeneralisationsRec 2 c).isSome := by
      decide +kernel
    exact Heap.isSome_getGeneralisationsRec_iff.mp (returns c member)
  have found := Heap.getNodeByGeneralisationNameRec_eq_some fits problemName
  have none : userAndFreeze.getNodeByGeneralisationNameRec 2 [2] problemName = some [] := by
    decide +kernel
  rw [none, Option.some_inj] at found
  have listed := Heap.mem_withFiledAbove.mpr ⟨List.mem_singleton_self 2, problem⟩
  rw [← found] at listed
  cases listed

/-- For a user without a problem the analyser that looks for a desired state does not return a
probability, whatever the stack. -/
theorem user_without_problem : userAndFreeze.AcyclicGeneralisations ∧
    ¬ ∃ depth, AnalysersReturnProbabilities userAndFreeze depth [2] := by
  refine ⟨acyclic_userAndFreeze, ?_⟩
  rintro ⟨depth, returned⟩
  obtain ⟨request, has, unit⟩ := returned.withDesiredState
  have personal : PersonalSubjects userAndFreeze [2] :=
    Or.inr ⟨2, by decide +kernel, by decide +kernel⟩
  have none : ∀ c ∈ [2], ¬ userAndFreeze.FiledAbove problemName c := fun c member =>
    List.mem_singleton.mp member ▸ not_user_problem
  -- an analyser that returns has searched through all that is above the user
  have searched := has
  rw [ProblemDescriptionWithDesiredStateAnalyser.apply_of_personal personal] at searched
  obtain ⟨actions, found, -⟩ := Option.bind_eq_some_iff.mp searched
  have fits := Heap.not_hasWalk_of_getNodeByGeneralisationNameRec found none
  obtain ⟨c, member, problem⟩ :=
    (inUnitInterval_withDesiredState_iff fits).mp ⟨request, has, unit⟩ personal
  exact none c member problem

end ThinkingUnderstanding
