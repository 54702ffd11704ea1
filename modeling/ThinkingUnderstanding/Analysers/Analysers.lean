import Mathlib.Tactic.NormNum
import ThinkingUnderstanding.Hierarchy.Ancestry

/-!
# The analysers of a situation

Three analysers look at the concepts of a situation and return a selector request with a
probability. Each starts from certainty and takes something off in stages: for the subjects, and
then for the actions or problems that are found by the names their generalisations are filed
under. The last stage is the same for all of them, down to the confidence `1.9` of finding
nothing.

`DirectInstructionAnalyser` computes a pair from the actions that have links too, and drops it.
`ProblemDescriptionWithDesiredStateAnalyser` searches for desires, and then counts the problems
a second time.

## Main definitions

* `Heap.getNodeByGeneralisationName` — the concepts with a generalisation of a name
* `DirectInstructionAnalyser.apply`, `ProblemDescriptionAnalyser.apply`,
  `ProblemDescriptionWithDesiredStateAnalyser.apply` — the analysers

## Main results

* `Heap.getNodeByGeneralisationNameRec_eq_some` — the search by name on a stack that suffices
* `Heap.not_hasWalk_of_getNodeByGeneralisationNameRec` — the stack that finding nothing takes
* `DirectInstructionAnalyser.probability_of_personal`, `probability_of_impersonal`,
  `ProblemDescriptionAnalyser.apply_of_nil`, `apply_of_ne_nil`,
  `ProblemDescriptionWithDesiredStateAnalyser.apply_of_impersonal`, `apply_of_personal` — what
  the analysers return
-/

namespace ThinkingUnderstanding

open Math Relation

namespace Heap

/-- `ConceptNetwork.getNodeByGeneralisationName(nodes, name)`. -/
def getNodeByGeneralisationName (heap : Heap) (nodes : List ConceptRef) (name : String) :
    List ConceptRef :=
  nodes.filter fun concept =>
    let gens := (heap.generalisations concept).frames.entries.filter fun uriConcept =>
      (heap.uri uriConcept.1).name = name
    gens.length > 0

variable {heap : Heap} {c : ConceptRef} {nodes : List ConceptRef} {name : String} {depth : ℕ}

@[simp] theorem mem_getNodeByGeneralisationName :
    c ∈ heap.getNodeByGeneralisationName nodes name ↔ c ∈ nodes ∧ heap.FiledUnder name c := by
  simp [getNodeByGeneralisationName, FiledUnder]

/-- A search that returns without a hit has been through all chains above the concept. -/
theorem not_hasWalk_of_filterGeneralisations {filtered : List (UriRef × ConceptRef)}
    (returns : heap.filterGeneralisations name depth (heap.generalisations c) = some filtered)
    (none : ¬ heap.FiledAbove name c) : ¬ HasWalk heap.generalisationsList depth c := by
  induction depth generalizing c filtered with
  | zero => cases returns
  | succ depth ih =>
    rintro ⟨g, general, walk⟩
    obtain ⟨uri, member⟩ := TypedKLine.mem_values_iff.mp general
    rw [filedAbove_iff] at none
    push Not at none
    obtain ⟨other, above⟩ := none (uri, g) member
    have defined := isSome_filterM_iff.mp (returns ▸ rfl : (Option.isSome <|
      heap.filterGeneralisations name (depth + 1) (heap.generalisations c))) (uri, g) member
    rw [if_neg other, Option.isSome_map] at defined
    obtain ⟨inner, has⟩ := Option.isSome_iff_exists.mp defined
    exact ih has above walk

open Classical in
/-- The concepts of a list that the search by name finds. -/
noncomputable def withFiledAbove (heap : Heap) (name : String) (nodes : List ConceptRef) :
    List ConceptRef :=
  nodes.filter fun c => heap.FiledAbove name c

theorem mem_withFiledAbove :
    c ∈ heap.withFiledAbove name nodes ↔ c ∈ nodes ∧ heap.FiledAbove name c := by
  simp [withFiledAbove]

theorem getNodeByGeneralisationNameRec_eq_some
    (fits : ∀ c ∈ nodes, ¬ HasWalk heap.generalisationsList depth c) (name : String) :
    heap.getNodeByGeneralisationNameRec depth nodes name =
      some (heap.withFiledAbove name nodes) := by
  refine filterM_eq_some fun c member => ?_
  obtain ⟨filtered, has, found⟩ := filterGeneralisations_returns name (fits c member)
  rw [has]
  exact congrArg some (decide_eq_decide.mpr found)

/-- Finding no concept by a name takes a stack for all chains above the concepts. -/
theorem not_hasWalk_of_getNodeByGeneralisationNameRec {found : List ConceptRef}
    (returns : heap.getNodeByGeneralisationNameRec depth nodes name = some found)
    (none : ∀ c ∈ nodes, ¬ heap.FiledAbove name c) :
    ∀ c ∈ nodes, ¬ HasWalk heap.generalisationsList depth c := by
  intro c member
  have defined := isSome_filterM_iff.mp (returns ▸ rfl : (Option.isSome <|
    heap.getNodeByGeneralisationNameRec depth nodes name)) c member
  cases has : heap.filterGeneralisations name depth (heap.generalisations c) with
  | none =>
    rw [has] at defined
    cases defined
  | some filtered => exact not_hasWalk_of_filterGeneralisations has (none c member)

end Heap

/-- A selector request with new URIs, given by their names. -/
structure NewSelectorRequest where
  resourceURIList : List String
  uri : String
  probability : Probability
  deriving DecidableEq, Repr

/-- `Constant.SUBJECT_NAME`. -/
def subjectName : String := "subjectConcept"

/-- `Constant.ACTION_NAME`. -/
def actionName : String := "actionConcept"

/-- `Constant.PROBLEM_NAME`. -/
def problemName : String := "problem"

/-- `Constant.DESIRE_NAME`. -/
def desireName : String := "desire"

/-- `Constant.SYSTEM_NAME`. -/
def systemName : String := "system"

/-- `Constant.SELECTOR_REQUEST_SIMULATION_URI`. -/
def selectorRequestSimulationURI : String :=
  "tu.coreservice.action.way2think.simulation.SimulationWay2Think"

/-- `Constant.SELECTOR_REQUEST_REFORMULATION_URI`. -/
def selectorRequestReformulationURI : String :=
  "tu.coreservice.action.way2think.reformulation.ReformulationWay2Think"

/-- `Constant.SELECTOR_REQUEST_SIMULATION_URI_NAME`. -/
def selectorRequestSimulationURIName : String := "Simulation"

/-- `Constant.SELECTOR_REQUEST_DIRECT_INSTRUCTION_URI_NAME`. -/
def selectorRequestDirectInstructionURIName : String := "DirectInstructionRequest"

/-- `Constant.SELECTOR_REQUEST_PROBLEM_DESCRIPTION_URI_NAME`. -/
def selectorRequestProblemDescriptionURIName : String := "ProblemDesriptionRequest"

/-- The stage that counts the actions or problems: one is what is asked for. -/
def countActions (actions : List ConceptRef) (frequencyConfidence : ℚ × ℚ) : ℚ × ℚ :=
  if actions.length = 1 then (frequencyConfidence.1 - 0, 9 / 10)
  else if actions.length > 1 then (frequencyConfidence.1 - 1 / 2, 9 / 10)
  else (frequencyConfidence.1 - 1, 19 / 10)

section

variable (heap : Heap)

/-- `subjects.size == 1 && subjects(0).uri.name != Constant.SYSTEM_NAME`. -/
def oneOtherSubject : List ConceptRef → Bool
  | [subject] => (heap.uriOf subject).name ≠ systemName
  | _ => false

/-- The actions with a link that has an end. The links are objects, so none of them is `null`. -/
def filteredActions (actions : List ConceptRef) : List ConceptRef :=
  actions.filter fun concept =>
    ((heap.linksOf concept).filter fun link =>
      if link.source ≠ concept then (some link.destination).isSome
      else (some link.source).isSome).length > 0

/-- `DirectInstructionAnalyser.apply`. -/
def DirectInstructionAnalyser.apply (currentSituation : List ConceptRef) : NewSelectorRequest :=
  let frequencyConfidence : ℚ × ℚ := (1, 1)
  let subjects := heap.getNodeByGeneralisationName currentSituation subjectName
  let frequencyConfidence :=
    if subjects.length > 1 then (frequencyConfidence.1 - 1, 1)
    else if oneOtherSubject heap subjects then (frequencyConfidence.1 - 1, 1)
    else (frequencyConfidence.1 - 0, 1)
  let frequencyConfidence :=
    if frequencyConfidence.1 > 0 then
      let actions := heap.getNodeByGeneralisationName currentSituation actionName
      let frequencyConfidence := countActions actions frequencyConfidence
      -- the value of this stage is not assigned to anything
      let _ : ℚ × ℚ :=
        if frequencyConfidence.1 > 0 then
          if (filteredActions heap actions).length > 0 then (frequencyConfidence.1 - 0, 9 / 10)
          else (frequencyConfidence.1 - 1, 1)
        else frequencyConfidence
      frequencyConfidence
    else frequencyConfidence
  let frequencyConfidence :=
    if frequencyConfidence.1 < 0 then (0, frequencyConfidence.2) else frequencyConfidence
  { resourceURIList := [selectorRequestSimulationURI]
    uri := selectorRequestSimulationURIName
    probability := ⟨frequencyConfidence.1, frequencyConfidence.2⟩ }

/-- `ProblemDescriptionAnalyser.apply`. -/
def ProblemDescriptionAnalyser.apply (depth : ℕ) (currentSituation : List ConceptRef) :
    Option NewSelectorRequest := do
  let frequencyConfidence : ℚ × ℚ := (1, 1)
  let subjects := heap.getNodeByGeneralisationName currentSituation subjectName
  let frequencyConfidence :=
    if subjects.length ≥ 1 then (frequencyConfidence.1 - 0, 1)
    else if oneOtherSubject heap subjects then (frequencyConfidence.1 - 0, 1)
    else (frequencyConfidence.1 - 1, 1)
  let frequencyConfidence ←
    if frequencyConfidence.1 > 0 then do
      let actions ← heap.getNodeByGeneralisationNameRec depth currentSituation problemName
      pure (countActions actions frequencyConfidence)
    else pure frequencyConfidence
  return {
    resourceURIList := [selectorRequestSimulationURI, selectorRequestReformulationURI]
    uri := selectorRequestProblemDescriptionURIName
    probability := ⟨frequencyConfidence.1, frequencyConfidence.2⟩ }

/-- `ProblemDescriptionWithDesiredStateAnalyser.apply`. -/
def ProblemDescriptionWithDesiredStateAnalyser.apply (depth : ℕ)
    (currentSituation : List ConceptRef) : Option NewSelectorRequest := do
  let frequencyConfidence : ℚ × ℚ := (1, 1)
  let subjects := heap.getNodeByGeneralisationName currentSituation subjectName
  let frequencyConfidence :=
    if subjects.length > 1 then (frequencyConfidence.1 - 0, 1)
    else if oneOtherSubject heap subjects then (frequencyConfidence.1 - 0, 1)
    else (frequencyConfidence.1 - 1, 1)
  let frequencyConfidence ←
    if frequencyConfidence.1 > 0 then do
      let actions ← heap.getNodeByGeneralisationNameRec depth currentSituation problemName
      let frequencyConfidence := countActions actions frequencyConfidence
      let _desires ← heap.getNodeByGeneralisationNameRec depth currentSituation desireName
      -- the actions are counted again, not the desires
      pure (countActions actions frequencyConfidence)
    else pure frequencyConfidence
  return {
    resourceURIList := [selectorRequestDirectInstructionURIName]
    uri := selectorRequestProblemDescriptionURIName
    probability := ⟨frequencyConfidence.1, frequencyConfidence.2⟩ }

/-- The subjects of the situation do not speak against a direct instruction: there is none, or
only the system. -/
def ImpersonalSubjects (currentSituation : List ConceptRef) : Prop :=
  let subjects := heap.getNodeByGeneralisationName currentSituation subjectName
  subjects = [] ∨ ∃ subject, subjects = [subject] ∧ (heap.uriOf subject).name = systemName

/-- There is a subject besides the system. -/
def PersonalSubjects (currentSituation : List ConceptRef) : Prop :=
  let subjects := heap.getNodeByGeneralisationName currentSituation subjectName
  subjects.length > 1 ∨ ∃ subject, subjects = [subject] ∧ (heap.uriOf subject).name ≠ systemName

end

variable {heap : Heap} {currentSituation : List ConceptRef} {depth : ℕ}

/-- The subjects are of one of the two kinds. -/
theorem impersonalSubjects_iff_not :
    ImpersonalSubjects heap currentSituation ↔ ¬ PersonalSubjects heap currentSituation := by
  unfold ImpersonalSubjects PersonalSubjects
  match heap.getNodeByGeneralisationName currentSituation subjectName with
  | [] => simp
  | [subject] => simp
  | _ :: _ :: _ => simp

theorem personalSubjects_iff : PersonalSubjects heap currentSituation ↔
    (heap.getNodeByGeneralisationName currentSituation subjectName).length > 1 ∨
      oneOtherSubject heap (heap.getNodeByGeneralisationName currentSituation subjectName) := by
  unfold PersonalSubjects
  match heap.getNodeByGeneralisationName currentSituation subjectName with
  | [] => simp [oneOtherSubject]
  | [subject] => simp [oneOtherSubject]
  | _ :: _ :: _ => simp [oneOtherSubject]

/-! ### What the analysers return -/

/-- The probability that is left when the actions are counted once. -/
def counted (actions : List ConceptRef) : Probability :=
  ⟨(countActions actions (1, 1)).1, (countActions actions (1, 1)).2⟩

/-- The probability that is left when the actions are counted twice. -/
def countedTwice (actions : List ConceptRef) : Probability :=
  ⟨(countActions actions (countActions actions (1, 1))).1,
    (countActions actions (countActions actions (1, 1))).2⟩

theorem countActions_nil (f c : ℚ) : countActions [] (f, c) = (f - 1, 19 / 10) := rfl

theorem countActions_singleton (a : ConceptRef) (f c : ℚ) :
    countActions [a] (f, c) = (f - 0, 9 / 10) := rfl

theorem countActions_cons_cons (a b : ConceptRef) (rest : List ConceptRef) (f c : ℚ) :
    countActions (a :: b :: rest) (f, c) = (f - 1 / 2, 9 / 10) := by
  rw [countActions, if_neg (by simp), if_pos (by simp)]

theorem counted_nil : counted [] = ⟨0, 19 / 10⟩ := by decide +kernel

theorem counted_singleton (a : ConceptRef) : counted [a] = ⟨1, 9 / 10⟩ := by
  rw [counted, countActions_singleton]
  decide +kernel

theorem counted_cons_cons (a b : ConceptRef) (rest : List ConceptRef) :
    counted (a :: b :: rest) = ⟨1 / 2, 9 / 10⟩ := by
  rw [counted, countActions_cons_cons]
  decide +kernel

theorem countedTwice_nil : countedTwice [] = ⟨-1, 19 / 10⟩ := by decide +kernel

theorem countedTwice_singleton (a : ConceptRef) : countedTwice [a] = ⟨1, 9 / 10⟩ := by
  rw [countedTwice, countActions_singleton, countActions_singleton]
  decide +kernel

theorem countedTwice_cons_cons (a b : ConceptRef) (rest : List ConceptRef) :
    countedTwice (a :: b :: rest) = ⟨0, 9 / 10⟩ := by
  rw [countedTwice, countActions_cons_cons, countActions_cons_cons]
  decide +kernel

theorem countActions_nonneg (actions : List ConceptRef) : 0 ≤ (countActions actions (1, 1)).1 := by
  match actions with
  | [] => rw [countActions_nil]; norm_num
  | [a] => rw [countActions_singleton]; norm_num
  | a :: b :: rest => rw [countActions_cons_cons]; norm_num

namespace DirectInstructionAnalyser

/-- The first stage takes everything off for subjects besides the system. -/
theorem probability_of_personal (personal : PersonalSubjects heap currentSituation) :
    (apply heap currentSituation).probability = ⟨0, 1⟩ := by
  have first : (if (heap.getNodeByGeneralisationName currentSituation subjectName).length > 1 then
      ((1 : ℚ) - 1, (1 : ℚ))
      else if oneOtherSubject heap (heap.getNodeByGeneralisationName currentSituation subjectName)
        then (1 - 1, 1) else (1 - 0, 1)) = (0, 1) := by
    rcases personalSubjects_iff.mp personal with many | one
    · rw [if_pos many, sub_self]
    · rw [if_pos one, sub_self, ite_self]
  simp only [apply, first, gt_iff_lt, lt_self_iff_false, if_false]

theorem probability_of_impersonal (impersonal : ImpersonalSubjects heap currentSituation) :
    (apply heap currentSituation).probability =
      counted (heap.getNodeByGeneralisationName currentSituation actionName) := by
  rw [impersonalSubjects_iff_not, personalSubjects_iff, not_or] at impersonal
  obtain ⟨few, alone⟩ := impersonal
  have clamped := not_lt.mpr
    (countActions_nonneg (heap.getNodeByGeneralisationName currentSituation actionName))
  simp only [apply, if_neg few, if_neg alone, sub_zero, gt_iff_lt, zero_lt_one, if_true,
    if_neg clamped, counted]

end DirectInstructionAnalyser

namespace ProblemDescriptionAnalyser

/-- The request that is returned, with a probability. -/
def request (probability : Probability) : NewSelectorRequest where
  resourceURIList := [selectorRequestSimulationURI, selectorRequestReformulationURI]
  uri := selectorRequestProblemDescriptionURIName
  probability := probability

theorem apply_of_nil
    (none : heap.getNodeByGeneralisationName currentSituation subjectName = []) :
    apply heap depth currentSituation = some (request ⟨0, 1⟩) := by
  have first : ¬ (heap.getNodeByGeneralisationName currentSituation subjectName).length ≥ 1 := by
    rw [none]
    decide
  have alone : oneOtherSubject heap
      (heap.getNodeByGeneralisationName currentSituation subjectName) = false := by
    rw [none]
    rfl
  simp only [apply, if_neg first, alone, Bool.false_eq_true, if_false, sub_self, gt_iff_lt,
    lt_self_iff_false]
  rfl

theorem apply_of_ne_nil
    (given : heap.getNodeByGeneralisationName currentSituation subjectName ≠ [])
    (fits : ∀ c ∈ currentSituation, ¬ HasWalk heap.generalisationsList depth c) :
    apply heap depth currentSituation =
      some (request (counted (heap.withFiledAbove problemName currentSituation))) := by
  have first : (heap.getNodeByGeneralisationName currentSituation subjectName).length ≥ 1 :=
    List.length_pos_iff.mpr given
  simp only [apply, if_pos first, sub_zero, gt_iff_lt, zero_lt_one, if_true,
    Heap.getNodeByGeneralisationNameRec_eq_some fits]
  rfl

end ProblemDescriptionAnalyser

namespace ProblemDescriptionWithDesiredStateAnalyser

/-- The request that is returned, with a probability. -/
def request (probability : Probability) : NewSelectorRequest where
  resourceURIList := [selectorRequestDirectInstructionURIName]
  uri := selectorRequestProblemDescriptionURIName
  probability := probability

theorem apply_of_impersonal (impersonal : ImpersonalSubjects heap currentSituation) :
    apply heap depth currentSituation = some (request ⟨0, 1⟩) := by
  rw [impersonalSubjects_iff_not, personalSubjects_iff, not_or] at impersonal
  obtain ⟨few, alone⟩ := impersonal
  simp only [apply, if_neg few, if_neg alone, sub_self, gt_iff_lt, lt_self_iff_false, if_false]
  rfl

/-- Where the searches return, the problems are counted twice. -/
theorem apply_of_personal (personal : PersonalSubjects heap currentSituation) :
    apply heap depth currentSituation = (do
      let actions ← heap.getNodeByGeneralisationNameRec depth currentSituation problemName
      let _ ← heap.getNodeByGeneralisationNameRec depth currentSituation desireName
      return request (countedTwice actions)) := by
  have first : (if (heap.getNodeByGeneralisationName currentSituation subjectName).length > 1 then
      ((1 : ℚ) - 0, (1 : ℚ))
      else if oneOtherSubject heap (heap.getNodeByGeneralisationName currentSituation subjectName)
        then (1 - 0, 1) else (1 - 1, 1)) = (1, 1) := by
    rcases personalSubjects_iff.mp personal with many | one
    · rw [if_pos many, sub_zero]
    · rw [if_pos one, sub_zero, ite_self]
  simp only [apply, first, gt_iff_lt, zero_lt_one, if_true]
  rfl

end ProblemDescriptionWithDesiredStateAnalyser

end ThinkingUnderstanding
