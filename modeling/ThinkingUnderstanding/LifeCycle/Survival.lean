import ThinkingUnderstanding.LifeCycle.Record

/-!
# Which updates of an action survive

An action reports a change of a model, of the simulation result, of the response, of the
errors or of the next goal by setting the field in the context it returns. The contract
of the merge onto the global context is that a field set there replaces the global one
and a field left unset keeps it. `mergeWithBaseContext` takes the models and the response
from the base, the simulation result from the first context that has one, and assigns
neither the errors nor the next goal; the update survives when these agree.

## Main definitions

* `UpdateSurvives` — the contract, between the contexts before, returned and after
* `UpdateAbsorbed` — the condition on the two contexts that are merged

## Main results

* `updateSurvives_copyGlobalContext_iff` — for one merge and for all merges of a run
-/

namespace ThinkingUnderstanding

open Semantics

variable {σ C P : Type}

/-- Every field that the returned context sets has its value afterwards, and every field
it leaves unset has the value it had before. -/
structure UpdateSurvives (before returned after : ShortTermMemory C P) : Prop where
  domainModel : after.domainModel = (returned.domainModel <|> before.domainModel)
  simulationModel : after.simulationModel = (returned.simulationModel <|> before.simulationModel)
  reformulationModel :
    after.reformulationModel = (returned.reformulationModel <|> before.reformulationModel)
  simulationResult :
    after.simulationResult = (returned.simulationResult <|> before.simulationResult)
  userResponse : after.userResponse = (returned.userResponse <|> before.userResponse)
  lastError : after.lastError = (returned.lastError <|> before.lastError)
  nextGoal : after.nextGoal = (returned.nextGoal <|> before.nextGoal)
  errors : after.errors = if returned.errors = [] then before.errors else returned.errors

/-- The returned context replaces no model and no response, it brings a simulation result
only where there was none, and neither context has an error or a next goal. -/
structure UpdateAbsorbed (before returned : ShortTermMemory C P) : Prop where
  domainModel : returned.domainModel = none ∨ returned.domainModel = before.domainModel
  simulationModel :
    returned.simulationModel = none ∨ returned.simulationModel = before.simulationModel
  reformulationModel :
    returned.reformulationModel = none ∨ returned.reformulationModel = before.reformulationModel
  simulationResult : returned.simulationResult = none ∨ before.simulationResult = none ∨
    returned.simulationResult = before.simulationResult
  userResponse : returned.userResponse = none ∨ returned.userResponse = before.userResponse
  lastError : returned.lastError = none ∧ before.lastError = none
  nextGoal : returned.nextGoal = none ∧ before.nextGoal = none
  errors : returned.errors = [] ∧ before.errors = []

section Fields

variable {α : Type}

/-- A field taken from the base survives unless the update replaces it. -/
theorem eq_orElse_iff {update base : Option α} :
    base = (update <|> base) ↔ update = none ∨ update = base := by
  cases update with
  | none => simp
  | some value => simp [eq_comm]

/-- A field taken from the first context that has one survives unless it replaces one. -/
theorem orElse_comm_iff {update base : Option α} :
    (base <|> update) = (update <|> base) ↔ update = none ∨ base = none ∨ update = base := by
  cases update with
  | none => simp
  | some value =>
    cases base with
    | none => simp
    | some value' => simp [eq_comm]

/-- A field that is dropped survives when there was nothing to keep. -/
theorem none_eq_orElse_iff {update base : Option α} :
    none = (update <|> base) ↔ update = none ∧ base = none := by
  cases update with
  | none => simp [eq_comm]
  | some value => simp

end Fields

namespace ShortTermMemory

@[simp] theorem lastError_setLastResult (ctx : ShortTermMemory C P) (result : Option Resource) :
    (ctx.setLastResult result).lastError = ctx.lastError := by
  obtain ⟨_, _, set⟩ := ctx.exists_setLastResult_eq result
  rw [set]

@[simp] theorem nextGoal_setLastResult (ctx : ShortTermMemory C P) (result : Option Resource) :
    (ctx.setLastResult result).nextGoal = ctx.nextGoal := by
  obtain ⟨_, _, set⟩ := ctx.exists_setLastResult_eq result
  rw [set]

@[simp] theorem errors_setLastResult (ctx : ShortTermMemory C P) (result : Option Resource) :
    (ctx.setLastResult result).errors = ctx.errors := by
  obtain ⟨_, _, set⟩ := ctx.exists_setLastResult_eq result
  rw [set]

end ShortTermMemory

section Merge

variable [DecidableEq C] [DecidableEq P]

open ContextHelper

theorem lastError_mergeWithBaseContext (g r : ShortTermMemory C P) :
    (mergeWithBaseContext g [g, r]).lastError = none :=
  ShortTermMemory.lastError_setLastResult _ _

theorem nextGoal_mergeWithBaseContext (g r : ShortTermMemory C P) :
    (mergeWithBaseContext g [g, r]).nextGoal = none :=
  ShortTermMemory.nextGoal_setLastResult _ _

theorem errors_mergeWithBaseContext (g r : ShortTermMemory C P) :
    (mergeWithBaseContext g [g, r]).errors = [] :=
  ShortTermMemory.errors_setLastResult _ _

theorem simulationResult_mergeWithBaseContext (g r : ShortTermMemory C P) :
    (mergeWithBaseContext g [g, r]).simulationResult =
      (g.simulationResult <|> r.simulationResult) := by
  change firstSimulationResult [g, g, r] = _
  unfold firstSimulationResult
  cases present : g.simulationResult with
  | none => cases found : r.simulationResult <;> simp [present, found]
  | some network => simp [present]

/-- One merge keeps the updates of the returned context exactly when it absorbs them. -/
theorem updateSurvives_mergeWithBaseContext_iff (g r : ShortTermMemory C P) :
    UpdateSurvives g r (mergeWithBaseContext g [g, r]) ↔ UpdateAbsorbed g r := by
  constructor
  · intro survives
    refine ⟨eq_orElse_iff.mp survives.domainModel, eq_orElse_iff.mp survives.simulationModel,
      eq_orElse_iff.mp survives.reformulationModel, ?_, eq_orElse_iff.mp survives.userResponse,
      ?_, ?_, ?_⟩
    · -- of two simulation results one is dropped, so both have to be the same
      have kept := survives.simulationResult
      rw [simulationResult_mergeWithBaseContext] at kept
      exact orElse_comm_iff.mp kept
    · have kept := survives.lastError
      rw [lastError_mergeWithBaseContext] at kept
      exact none_eq_orElse_iff.mp kept
    · have kept := survives.nextGoal
      rw [nextGoal_mergeWithBaseContext] at kept
      exact none_eq_orElse_iff.mp kept
    · have kept := survives.errors
      rw [errors_mergeWithBaseContext] at kept
      split_ifs at kept with unset
      · exact ⟨unset, kept.symm⟩
      · exact absurd kept.symm unset
  · intro absorbed
    refine ⟨eq_orElse_iff.mpr absorbed.domainModel, eq_orElse_iff.mpr absorbed.simulationModel,
      eq_orElse_iff.mpr absorbed.reformulationModel, ?_,
      eq_orElse_iff.mpr absorbed.userResponse, ?_, ?_, ?_⟩
    · rw [simulationResult_mergeWithBaseContext]
      exact orElse_comm_iff.mpr absorbed.simulationResult
    · rw [lastError_mergeWithBaseContext]
      exact none_eq_orElse_iff.mpr absorbed.lastError
    · rw [nextGoal_mergeWithBaseContext]
      exact none_eq_orElse_iff.mpr absorbed.nextGoal
    · rw [errors_mergeWithBaseContext, if_pos absorbed.errors.1, absorbed.errors.2]

open ThinkingLifeCycle

/-- A call of `copyGlobalContext` keeps the updates of the context it is given exactly
when they are absorbed, and so does every such call in every run of `runGoals`: the
recorded changes lead from the first global context to the last one, and each of them
that is a call of `copyGlobalContext` satisfies the equivalence. -/
theorem updateSurvives_copyGlobalContext_iff :
    (∀ (s : LifeCycle σ C P) (r : ShortTermMemory C P)
        (joined : List (List (ShortTermMemory C P))),
      UpdateSurvives s.globalContext r
          (finalState ((copyGlobalContext r joined).run s)).globalContext ↔
        UpdateAbsorbed s.globalContext r) ∧
    ∀ (env : Environment σ C P) (depth rounds : ℕ) (targetGoals : List Goal)
      (s : LifeCycle σ C P),
      ∃ events,
        (finalState ((runGoals env depth rounds targetGoals).run s)).record =
          s.record ++ events ∧
        Linked Event.before Event.after s.globalContext events
          (finalState ((runGoals env depth rounds targetGoals).run s)).globalContext ∧
        ∀ step, Event.copied step ∈ events →
          (UpdateSurvives step.base step.returned step.result ↔
            UpdateAbsorbed step.base step.returned) := by
  constructor
  · intro s r joined
    exact updateSurvives_mergeWithBaseContext_iff s.globalContext r
  · intro env depth rounds targetGoals s
    obtain ⟨events, record, linked, valid⟩ := recorded_runGoals env depth rounds targetGoals s
    refine ⟨events, record, linked, fun step member => ?_⟩
    have done : step.Valid := valid _ member
    rw [done.result]
    exact updateSurvives_mergeWithBaseContext_iff step.base step.returned

end Merge

/-- `CorrelationWay2Think` returns an extended simulation model in a context of its own;
the global context keeps the old one. -/
theorem updated_simulationModel_lost :
    ¬ UpdateSurvives ({ simulationModel := some 1 } : ShortTermMemory ConceptRef PhraseRef)
      { lastResult := some (.conceptNetwork 3 30), simulationModel := some 2 }
      (finalState ((ThinkingLifeCycle.copyGlobalContext
        { lastResult := some (.conceptNetwork 3 30), simulationModel := some 2 }).run
        ({ globalContext := { simulationModel := some 1 }, world := () } :
          LifeCycle Unit ConceptRef PhraseRef))).globalContext := by
  intro survives
  have kept : (some 1 : Option NetworkRef) = some 2 := survives.simulationModel
  exact absurd kept (by decide)

end ThinkingUnderstanding
