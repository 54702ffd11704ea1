import ThinkingUnderstanding.Analysers.Probabilities

/-!
# Is a positive classification justified?

A problem description with a desired state needs a problem and a desire, and a direct instruction
an action with an object. The stages that look for the desire and for the object compute something
that is not used. So one problem is enough for the first, and an action for the second.

## Main definitions

* `Heap.LinkedToAnother` — the concept has a link to another one
* `PositiveIsJustified` — what a frequency above zero should tell

## Main results

* `frequency_counted_pos_iff`, `frequency_countedTwice_pos_iff` — the stage that counts
* `positiveIsJustified_iff` — the situations in which that is so
-/

namespace ThinkingUnderstanding

open Math

/-- The concept has a link with another concept at an end. -/
def Heap.LinkedToAnother (heap : Heap) (c : ConceptRef) : Prop :=
  ∃ link ∈ heap.linksOf c, link.source ≠ c ∨ link.destination ≠ c

/-- A frequency above zero tells that the situation has what the classification is about: a
problem and a desire, or an action with a link to another concept. -/
structure PositiveIsJustified (heap : Heap) (depth : ℕ) (currentSituation : List ConceptRef) :
    Prop where
  withDesiredState : ∀ request,
    ProblemDescriptionWithDesiredStateAnalyser.apply heap depth currentSituation = some request →
      0 < request.probability.frequency →
        (∃ c ∈ currentSituation, heap.FiledAbove problemName c) ∧
          ∃ c ∈ currentSituation, heap.FiledAbove desireName c
  directInstruction :
    0 < (DirectInstructionAnalyser.apply heap currentSituation).probability.frequency →
      ∃ c ∈ currentSituation, heap.FiledUnder actionName c ∧ heap.LinkedToAnother c

theorem frequency_counted_pos_iff {actions : List ConceptRef} :
    0 < (counted actions).frequency ↔ actions ≠ [] := by
  match actions with
  | [] => rw [counted_nil]; decide +kernel
  | [a] => rw [counted_singleton]; exact iff_of_true (by decide +kernel) (by simp)
  | a :: b :: rest => rw [counted_cons_cons]; exact iff_of_true (by decide +kernel) (by simp)

/-- Two problems counted twice leave nothing. -/
theorem frequency_countedTwice_pos_iff {actions : List ConceptRef} :
    0 < (countedTwice actions).frequency ↔ actions.length = 1 := by
  match actions with
  | [] => rw [countedTwice_nil]; decide +kernel
  | [a] => rw [countedTwice_singleton]; exact iff_of_true (by decide +kernel) rfl
  | a :: b :: rest => rw [countedTwice_cons_cons]; exact iff_of_false (by decide +kernel) (by simp)

variable {heap : Heap} {currentSituation : List ConceptRef} {depth : ℕ}

theorem frequency_directInstruction_pos_iff :
    0 < (DirectInstructionAnalyser.apply heap currentSituation).probability.frequency ↔
      ImpersonalSubjects heap currentSituation ∧
        ∃ c ∈ currentSituation, heap.FiledUnder actionName c := by
  by_cases impersonal : ImpersonalSubjects heap currentSituation
  · rw [DirectInstructionAnalyser.probability_of_impersonal impersonal, frequency_counted_pos_iff,
      getNodeByGeneralisationName_ne_nil_iff, and_iff_right impersonal]
  · have personal := not_not.mp (impersonalSubjects_iff_not.not.mp impersonal)
    rw [DirectInstructionAnalyser.probability_of_personal personal]
    exact iff_of_false (lt_irrefl 0) fun both => impersonal both.1

/-- A request of positive frequency is returned for a subject and exactly one problem, as far as
the searches return. -/
theorem withDesiredState_pos_iff
    (fits : ∀ c ∈ currentSituation, ¬ HasWalk heap.generalisationsList depth c) :
    (∃ request,
      ProblemDescriptionWithDesiredStateAnalyser.apply heap depth currentSituation = some request ∧
        0 < request.probability.frequency) ↔
      PersonalSubjects heap currentSituation ∧
        (heap.withFiledAbove problemName currentSituation).length = 1 := by
  by_cases personal : PersonalSubjects heap currentSituation
  · rw [ProblemDescriptionWithDesiredStateAnalyser.apply_of_personal personal,
      Heap.getNodeByGeneralisationNameRec_eq_some fits,
      Heap.getNodeByGeneralisationNameRec_eq_some fits, and_iff_right personal,
      ← frequency_countedTwice_pos_iff]
    constructor
    · rintro ⟨_, ⟨⟩, positive⟩
      exact positive
    · exact fun positive => ⟨_, rfl, positive⟩
  · rw [ProblemDescriptionWithDesiredStateAnalyser.apply_of_impersonal
      (impersonalSubjects_iff_not.mpr personal)]
    refine iff_of_false ?_ fun both => personal both.1
    rintro ⟨_, ⟨⟩, positive⟩
    exact lt_irrefl 0 positive

/-- A positive frequency that is not justified by a problem and a desire lacks the desire, and has
been found on a stack that fits the chains above the situation. -/
theorem withDesiredState_of_pos {request : NewSelectorRequest}
    (returned : ProblemDescriptionWithDesiredStateAnalyser.apply heap depth currentSituation =
      some request) (positive : 0 < request.probability.frequency) :
    (∃ c ∈ currentSituation, heap.FiledAbove problemName c) ∧
        (∃ c ∈ currentSituation, heap.FiledAbove desireName c) ∨
      ∀ c ∈ currentSituation, ¬ HasWalk heap.generalisationsList depth c := by
  by_cases personal : PersonalSubjects heap currentSituation
  · rw [ProblemDescriptionWithDesiredStateAnalyser.apply_of_personal personal] at returned
    obtain ⟨problems, found, returned⟩ := Option.bind_eq_some_iff.mp returned
    obtain ⟨desires, sought, -⟩ := Option.bind_eq_some_iff.mp returned
    by_cases problem : ∃ c ∈ currentSituation, heap.FiledAbove problemName c
    · by_cases desire : ∃ c ∈ currentSituation, heap.FiledAbove desireName c
      · exact Or.inl ⟨problem, desire⟩
      · push Not at desire
        -- a search for a name that nobody has went all the way up from everybody
        exact Or.inr (Heap.not_hasWalk_of_getNodeByGeneralisationNameRec sought desire)
    · push Not at problem
      exact Or.inr (Heap.not_hasWalk_of_getNodeByGeneralisationNameRec found problem)
  · rw [ProblemDescriptionWithDesiredStateAnalyser.apply_of_impersonal
      (impersonalSubjects_iff_not.mpr personal)] at returned
    obtain rfl := Option.some.inj returned
    exact absurd positive (lt_irrefl 0)

/-- A positive classification is justified exactly unless the situation has, besides subjects
that allow it, exactly one problem and no desire, or an action but none that is linked. -/
theorem positiveIsJustified_iff (heap : Heap) (depth : ℕ) (currentSituation : List ConceptRef) :
    PositiveIsJustified heap depth currentSituation ↔
      ((∀ c ∈ currentSituation, ¬ HasWalk heap.generalisationsList depth c) →
        PersonalSubjects heap currentSituation →
          (heap.withFiledAbove problemName currentSituation).length = 1 →
            ∃ c ∈ currentSituation, heap.FiledAbove desireName c) ∧
      (ImpersonalSubjects heap currentSituation →
        (∃ c ∈ currentSituation, heap.FiledUnder actionName c) →
          ∃ c ∈ currentSituation, heap.FiledUnder actionName c ∧ heap.LinkedToAnother c) := by
  constructor
  · intro justified
    refine ⟨fun fits personal one => ?_, fun impersonal action => ?_⟩
    · obtain ⟨request, returned, positive⟩ := (withDesiredState_pos_iff fits).mpr ⟨personal, one⟩
      exact (justified.withDesiredState request returned positive).2
    · have positive := frequency_directInstruction_pos_iff.mpr ⟨impersonal, action⟩
      exact justified.directInstruction positive
  · rintro ⟨desired, linked⟩
    constructor
    case withDesiredState =>
      intro request returned positive
      -- either both are there, or the searches were complete and the condition says the rest
      rcases withDesiredState_of_pos returned positive with both | fits
      · exact both
      · obtain ⟨personal, one⟩ := (withDesiredState_pos_iff fits).mp ⟨request, returned, positive⟩
        have problem : heap.withFiledAbove problemName currentSituation ≠ [] :=
          List.ne_nil_of_length_pos (one ▸ Nat.one_pos)
        exact ⟨withFiledAbove_ne_nil_iff.mp problem, desired fits personal one⟩
    case directInstruction =>
      intro positive
      obtain ⟨impersonal, action⟩ := frequency_directInstruction_pos_iff.mp positive
      exact linked impersonal action

/-! ### A user and a crash -/

/-- A user, which is a subject, and a crash, which is a problem. -/
def userAndCrash : Heap where
  concepts := .ofList [{ uri := 0 }, { uri := 1 }, { uri := 2, generalisations := some 0 },
    { uri := 3, generalisations := some 1 }]
  uris := .ofList [{ name := "subjectConcept" }, { name := "problem" }, { name := "user" },
    { name := "crash" }]
  conceptLines := .ofList [({} : TypedKLine ConceptRef).add 0 0,
    ({} : TypedKLine ConceptRef).add 1 1]

theorem userAndCrash_fits : ∀ c ∈ [2, 3], ¬ HasWalk userAndCrash.generalisationsList 2 c := by
  intro c member
  have returns : ∀ c ∈ [2, 3], (userAndCrash.getGeneralisationsRec 2 c).isSome := by decide +kernel
  exact Heap.isSome_getGeneralisationsRec_iff.mp (returns c member)

/-- The crash of the user is a problem description with a desired state, with certainty, and
nothing is desired. -/
theorem userAndCrash_not_justified : ¬ PositiveIsJustified userAndCrash 2 [2, 3] := by
  intro justified
  have certain : (ProblemDescriptionWithDesiredStateAnalyser.apply userAndCrash 2 [2, 3]).map
      (fun request => request.probability.frequency) = some 1 := by decide +kernel
  obtain ⟨request, returned, one⟩ := Option.map_eq_some_iff.mp certain
  obtain ⟨c, member, desired⟩ :=
    (justified.withDesiredState request returned (one ▸ zero_lt_one)).2
  -- the search finds nobody with a desire
  have found := Heap.getNodeByGeneralisationNameRec_eq_some userAndCrash_fits desireName
  have none : userAndCrash.getNodeByGeneralisationNameRec 2 [2, 3] desireName = some [] := by
    decide +kernel
  rw [none, Option.some_inj] at found
  have listed := Heap.mem_withFiledAbove.mpr ⟨member, desired⟩
  rw [← found] at listed
  cases listed

end ThinkingUnderstanding
