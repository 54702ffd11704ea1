import ThinkingUnderstanding.Model.Reference

/-!
# Short-term memory and the combinators on contexts

A `ShortTermMemory` is the context an action receives and the context it returns.
`ContextHelper` builds contexts and merges them. The four merges differ field by
field: some fields are united, some are taken from the first context or from the
last one, and the rest start again from the class defaults.

The combinators are written as the source writes them: a fresh context, then one
assignment after another. Reading a singleton with `reduceLeft` gives that context
back, with all its fields, so `ContextHelper.mergeAll [c] = c`.

The type parameters `C` and `P` are the concepts and the annotated phrases, compared
by whatever equality the code uses for them. The URI of a context, which carries a
time stamp and is read nowhere, is left out.

## Main definitions

* `ShortTermMemory` — the fields of a context
* `ShortTermMemory.setLastResult` — the setter that also files the result
* `ContextHelper.merge`, `mergeAll`, `mergeLast`, `mergeFirstAndLastResult`,
  `mergeWithBaseContext` — the combinators
-/

namespace ThinkingUnderstanding

open Math

/-- `tu.model.knowledge.training.Goal`: goals are compared by reference, selected by name. -/
structure Goal where
  object : ℕ
  name : String
  deriving DecidableEq, Repr

/-- The fields of `ShortTermMemory`, with the values its constructor gives them. -/
structure ShortTermMemory (C P : Type) where
  frames : InsertionMap UriRef Resource := .empty
  bestClassificationResult : Option SelectorRequest := none
  lastResult : Option Resource := none
  classificationResults : List SelectorRequest := []
  checkedClassificationResults : List SelectorRequest := []
  domainModel : Option NetworkRef := none
  simulationModel : Option NetworkRef := none
  reformulationModel : Option NetworkRef := none
  /-- References of the `SolvedIssue`s. -/
  solutions : List ℕ := []
  errors : List String := []
  lastError : Option String := none
  /-- Reference of the `Response`. -/
  userResponse : Option ℕ := none
  nextGoal : Option Goal := none
  simulationResult : Option NetworkRef := none
  notUnderstoodConcepts : List C := []
  notUnderstoodPhrases : List P := []
  lastReflectiveResult : Option Resource := none
  resultToReport : TypedKLine (Narrative C) := {}
  /-- Narratives of `SolvedIssue` references. -/
  solutionsToReport : TypedKLine (Narrative ℕ) := {}
  deriving DecidableEq

namespace ShortTermMemory

variable {C P : Type}

/-- The setter `lastResult_=`. A selector request not seen before joins the
classification results and the frames; any other resource joins the frames. -/
def setLastResult (ctx : ShortTermMemory C P) (result : Option Resource) :
    ShortTermMemory C P :=
  match result with
  | some (.selectorRequest request) =>
      if request ∈ ctx.classificationResults then
        { ctx with lastResult := result }
      else
        { ctx with
          lastResult := result
          classificationResults := request :: ctx.classificationResults
          frames := ctx.frames.insert request.uri (.selectorRequest request) }
  | some resource =>
      { ctx with lastResult := result, frames := ctx.frames.insert resource.uri resource }
  | none => { ctx with lastResult := none }

/-- Setting the last result changes nothing but the last result, the classification
results and the frames. -/
theorem exists_setLastResult_eq (ctx : ShortTermMemory C P) (result : Option Resource) :
    ∃ classificationResults frames, ctx.setLastResult result =
      { ctx with lastResult := result, classificationResults, frames } := by
  unfold setLastResult
  split
  · split_ifs
    · exact ⟨_, _, rfl⟩
    · exact ⟨_, _, rfl⟩
  · exact ⟨_, _, rfl⟩
  · exact ⟨_, _, rfl⟩

end ShortTermMemory

namespace ContextHelper

variable {C P : Type}

/-- `ContextHelper.apply(resources, name)`. -/
def ofResources (resources : List Resource) : ShortTermMemory C P where
  frames := .ofList (resources.map fun r => (r.uri, r))

/-- `ContextHelper.apply(resources, lastResult, name)`. -/
def ofLastResult (resources : List Resource) (lastResult : Resource) : ShortTermMemory C P :=
  (ofResources resources).setLastResult (some lastResult)

/-- `ContextHelper.createReflectiveContext`. -/
def createReflectiveContext (lastResult : Resource) : ShortTermMemory C P :=
  { (ofResources [lastResult] : ShortTermMemory C P) with
    lastReflectiveResult := some lastResult }

/-- The context `AnonymousContext`, which every merge of no contexts returns. -/
def anonymousContext : ShortTermMemory C P := ofResources []

/-- `ContextHelper.createContext`. -/
def createContext (resourcesMap : InsertionMap UriRef Resource)
    (classificationResults : List SelectorRequest) : ShortTermMemory C P where
  frames := resourcesMap
  classificationResults := classificationResults

/-- `ContextHelper.mergeList`: the requests of `x` that `y` lacks, then `y`. -/
def mergeList (x y : List SelectorRequest) : List SelectorRequest :=
  x.filter (fun p => p ∉ y) ++ y

/-- `ContextHelper.merge(first, second)`: frames and classification results. -/
def merge (first second : ShortTermMemory C P) : ShortTermMemory C P :=
  { (createContext (first.frames.union second.frames)
      (mergeList first.classificationResults second.classificationResults) :
      ShortTermMemory C P) with
    checkedClassificationResults :=
      mergeList first.checkedClassificationResults second.checkedClassificationResults }

/-- `ContextHelper.merge(contexts)`: fold to the left. -/
def mergeAll : List (ShortTermMemory C P) → ShortTermMemory C P
  | [] => anonymousContext
  | first :: rest => rest.foldl merge first

/-- The `simulationResult` of the first context that has one. -/
def firstSimulationResult (contexts : List (ShortTermMemory C P)) : Option NetworkRef :=
  contexts.findSome? ShortTermMemory.simulationResult

/-- `ContextHelper.mergeLast`: the merge, with the last context's result and models. -/
def mergeLast (contexts : List (ShortTermMemory C P)) : ShortTermMemory C P :=
  match contexts.getLast? with
  | some last =>
      { (mergeAll contexts).setLastResult last.lastResult with
        simulationResult := firstSimulationResult contexts
        domainModel := last.domainModel
        simulationModel := last.simulationModel
        reformulationModel := last.reformulationModel }
  | none => anonymousContext

/-- `ContextHelper.mergeFirstAndLastResult`: the merge, with the last context's
results where it has them and the first context's models and response. -/
def mergeFirstAndLastResult (contexts : List (ShortTermMemory C P)) : ShortTermMemory C P :=
  match contexts.head?, contexts.getLast? with
  | some head, some last =>
      let merged := mergeAll contexts
      let res := if last.lastResult.isSome then merged.setLastResult last.lastResult else merged
      { res with
        lastReflectiveResult := last.lastReflectiveResult <|> res.lastReflectiveResult
        simulationResult := firstSimulationResult contexts
        domainModel := head.domainModel
        simulationModel := head.simulationModel
        reformulationModel := head.reformulationModel
        userResponse := head.userResponse }
  | _, _ => anonymousContext

/-- `ContextHelper.mergeWithBaseContext`. Results come from the last context, or from
the base where the last context has none; models, response and solutions are those
of the base; what was not understood and what is to be reported is collected from
all contexts; errors, the last error and the next goal are not assigned. -/
def mergeWithBaseContext [DecidableEq C] [DecidableEq P] (baseContext : ShortTermMemory C P)
    (supplementalContexts : List (ShortTermMemory C P)) : ShortTermMemory C P :=
  let contexts := baseContext :: supplementalContexts
  let last := contexts.getLast (List.cons_ne_nil _ _)
  let res := (mergeAll contexts).setLastResult (last.lastResult <|> baseContext.lastResult)
  { res with
    lastReflectiveResult := last.lastReflectiveResult <|> baseContext.lastReflectiveResult
    simulationResult := firstSimulationResult contexts
    domainModel := baseContext.domainModel
    simulationModel := baseContext.simulationModel
    reformulationModel := baseContext.reformulationModel
    userResponse := baseContext.userResponse
    solutions := baseContext.solutions
    notUnderstoodPhrases := (contexts.flatMap (·.notUnderstoodPhrases)).eraseDups
    notUnderstoodConcepts := (contexts.flatMap (·.notUnderstoodConcepts)).eraseDups
    resultToReport := contexts.foldl (fun accum c => accum.merge c.resultToReport) {}
    solutionsToReport := contexts.foldl (fun accum c => accum.merge c.solutionsToReport) {} }

end ContextHelper

end ThinkingUnderstanding
