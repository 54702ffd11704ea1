import ThinkingUnderstanding.LifeCycle.Goals
import ThinkingUnderstanding.LifeCycle.Survival
import ThinkingUnderstanding.LifeCycle.Training

/-!
# Which goals a request runs

`ThinkingLifeCycleMinimal.apply` is overloaded on the class of the request; each overload
loads the models and runs the goals of a work-flow of `KBAdapter`. The loop selects one goal
after another. A next goal that an action asks for would have to reach the goal manager in
the global context, but no merge onto the global context assigns it, so the loop
always moves on to the goal that comes next in the list.

## Main definitions

* `RequestClass`, `RequestClass.targetGoals` — the overloads of `apply`
* `Selection`, `selections` — the goals a run selects, with the states before and after
* `RunsWorkflow` — the contract of a request

## Main results

* `linked_selections` — each goal is run on the state that the one before it left
* `exists_selections_eq_take` — the goals are selected in the order of the list
* `runsWorkflow_iff` — for every request, every memory and all actions
-/

namespace ThinkingUnderstanding

open Semantics ThinkingLifeCycle Training

variable {σ C P : Type} [DecidableEq C] [DecidableEq P]

/-- The class that a request is declared with, which decides the overload of `apply`. -/
inductive RequestClass
  | request
  | trainingRequest
  | roboticDataRequest
  deriving DecidableEq, Repr

namespace RequestClass

/-- The goals that the overload of `apply` runs. -/
def targetGoals : RequestClass → List Goal
  | request => KBAdapter.roboticDataWorkflow
  | trainingRequest => KBAdapter.trainingWorkflow
  | roboticDataRequest => KBAdapter.roboticDataWorkflow

/-- The work-flow that `KBAdapter` defines for the requests of a class. -/
def workflow : RequestClass → List Goal
  | request => KBAdapter.workflow
  | trainingRequest => KBAdapter.trainingWorkflow
  | roboticDataRequest => KBAdapter.roboticDataWorkflow

end RequestClass

/-- `ThinkingLifeCycleMinimal.apply`, by the class of the request. -/
def applyRequest (memory : ModelMemory σ) (env : Environment σ C P) (depth rounds : ℕ)
    (kind : RequestClass) (request : TrainingRequest) : Program σ C P (ShortTermMemory C P) :=
  match kind with
  | .trainingRequest => do
      return (← applyTraining memory env depth rounds request).globalContext
  | _ => do
      initializeGlobalContext memory request
      runGoals env depth rounds kind.targetGoals
      return (← get).globalContext

/-- A goal that has been selected, the state in which it was, and what running it gave. -/
structure Selection (σ C P : Type) where
  goal : Goal
  before : LifeCycle σ C P
  result : EStateM.Result Failure (LifeCycle σ C P) Unit

omit [DecidableEq C] [DecidableEq P] in
/-- The next goals named in the context that is merged, and in those behind it. -/
def Event.named : Event C P → List Goal
  | .edited _ _ => []
  | .copied step =>
      (step.returned :: step.joined.flatten).filterMap ShortTermMemory.nextGoal

namespace Selection

omit [DecidableEq C] [DecidableEq P]

/-- The state that running the goal left. -/
def after (selection : Selection σ C P) : LifeCycle σ C P := finalState selection.result

/-- The next goals that actions name in the contexts that are merged while the goal is run. -/
def named (selection : Selection σ C P) : List Goal :=
  (selection.after.record.drop selection.before.record.length).flatMap Event.named

end Selection

/-- The goals that the loop of `runGoals` selects, in at most `rounds` rounds. -/
def selections (env : Environment σ C P) (depth : ℕ) :
    ℕ → GoalManager → LifeCycle σ C P → List (Selection σ C P)
  | 0, _, _ => []
  | rounds + 1, manager, s =>
      match manager.currentGoal with
      | some goal =>
          let result := (runGoal env depth goal).run s
          ⟨goal, s, result⟩ ::
            match result with
            | .ok _ t => selections env depth rounds (manager.nextGoal t.globalContext).2 t
            | .error _ _ => []
      | none => []

/-- The goals that are selected for a request. -/
def selectionsOf (memory : ModelMemory σ) (env : Environment σ C P) (depth rounds : ℕ)
    (kind : RequestClass) (request : TrainingRequest) (s : LifeCycle σ C P) :
    List (Selection σ C P) :=
  match (initializeGlobalContext memory request).run s with
  | .ok _ t => selections env depth rounds { targetGoals := kind.targetGoals } t
  | .error _ _ => []

/-- The contract of a request of a class. When no action names a next goal, the goals of the
work-flow are selected, each once and in order, and each is run on the state that the one
before it left. When an action names a next goal that belongs to the work-flow, that goal
is selected next. Goals are the same when their names are. -/
structure RunsWorkflow (memory : ModelMemory σ) (env : Environment σ C P) (depth rounds : ℕ)
    (kind : RequestClass) (request : TrainingRequest) (s : LifeCycle σ C P) : Prop where
  inOrder : (∀ selection ∈ selectionsOf memory env depth rounds kind request s,
      selection.named = []) →
    (selectionsOf memory env depth rounds kind request s).map (Goal.name ∘ Selection.goal) =
        kind.workflow.map Goal.name ∧
      ∃ t, (initializeGlobalContext memory request).run s = .ok () t ∧
        Linked Selection.before Selection.after t
          (selectionsOf memory env depth rounds kind request s)
          (finalState ((runGoals env depth rounds kind.targetGoals).run t))
  honoured : ∀ i selection, (selectionsOf memory env depth rounds kind request s)[i]? =
      some selection → ∀ goal ∈ selection.named,
        goal.name ∈ kind.workflow.map Goal.name →
          ((selectionsOf memory env depth rounds kind request s)[i + 1]?).map
            (Goal.name ∘ Selection.goal) = some goal.name

section Loop

variable {env : Environment σ C P} {depth : ℕ}

/-- No next goal is left after a goal has been run. -/
theorem nextGoal_of_run_runGoal {goal : Goal} {s t : LifeCycle σ C P}
    (run : (runGoal env depth goal).run s = .ok () t) : t.globalContext.nextGoal = none := by
  unfold runGoal at run
  cases found : env.getByGoalName goal.name with
  | none =>
    rw [found] at run
    cases run
  | some resources =>
    rw [found] at run
    obtain ⟨contexts, s₁, -, run⟩ := run_bind_eq_ok_iff.mp run
    obtain ⟨_, s₂, -, run⟩ := run_bind_eq_ok_iff.mp run
    obtain ⟨refContexts, s₃, -, run⟩ := run_bind_eq_ok_iff.mp run
    cases run
    exact nextGoal_mergeWithBaseContext _ _

/-- After a goal has been run, the manager moves on to the next one. -/
theorem nextGoal_eq_of_run_runGoal {goal : Goal} {manager : GoalManager}
    {s t : LifeCycle σ C P} (run : (runGoal env depth goal).run s = .ok () t) :
    (manager.nextGoal t.globalContext).2 =
      { manager with currentIndex := manager.currentIndex + 1 } := by
  rw [GoalManager.nextGoal, nextGoal_of_run_runGoal run]
  rfl

variable (env depth) in
/-- Each goal is run on the state that the one before it left. -/
theorem linked_selections (rounds : ℕ) (manager : GoalManager) (s : LifeCycle σ C P) :
    Linked Selection.before Selection.after s (selections env depth rounds manager s)
      (finalState ((runGoalsLoop env depth rounds manager).run s)) := by
  induction rounds generalizing manager s with
  | zero =>
    rw [selections, linked_nil, runGoalsLoop]
    split_ifs
    · rfl
    · rfl
  | succ rounds ih =>
    rw [selections, runGoalsLoop]
    cases current : manager.currentGoal with
    | none => rfl
    | some goal =>
      dsimp only
      rw [linked_cons]
      refine ⟨rfl, ?_⟩
      rw [EStateM.run_bind]
      cases run : (runGoal env depth goal).run s with
      | error e t => rfl
      | ok _ t =>
        obtain ⟨next, moved⟩ := exists_nextGoal_eq current t.globalContext
        have left := ih (manager.nextGoal t.globalContext).2 t
        dsimp only
        rw [EStateM.run_bind, EStateM.run_get]
        dsimp only
        rw [moved]
        exact left

/-- The loop selects the goals in the order of the list, from the current one on. -/
theorem exists_selections_eq_take (rounds : ℕ) (manager : GoalManager) (s : LifeCycle σ C P) :
    ∃ n, (selections env depth rounds manager s).map Selection.goal =
      (manager.targetGoals.drop manager.currentIndex.toNatClampNeg).take n := by
  induction rounds generalizing manager s with
  | zero => exact ⟨0, rfl⟩
  | succ rounds ih =>
    rw [selections]
    cases current : manager.currentGoal with
    | none => exact ⟨0, rfl⟩
    | some goal =>
      obtain ⟨nonneg, below, found⟩ := GoalManager.of_currentGoal_eq_some current
      obtain ⟨inside, here⟩ := List.getElem?_eq_some_iff.mp found
      rw [List.drop_eq_getElem_cons inside, here]
      dsimp only
      cases run : (runGoal env depth goal).run s with
      | error e t => exact ⟨1, rfl⟩
      | ok _ t =>
        obtain ⟨n, selected⟩ := ih (manager.nextGoal t.globalContext).2 t
        have left : (manager.nextGoal t.globalContext).2.targetGoals.drop
            (manager.nextGoal t.globalContext).2.currentIndex.toNatClampNeg =
              manager.targetGoals.drop (manager.currentIndex.toNatClampNeg + 1) := by
          rw [nextGoal_eq_of_run_runGoal run, GoalManager.toNatClampNeg_add_one nonneg below]
        rw [left] at selected
        exact ⟨n + 1, congrArg (goal :: ·) selected⟩

theorem selections_of_none {manager : GoalManager} (ended : manager.currentGoal = none)
    (rounds : ℕ) (s : LifeCycle σ C P) : selections env depth rounds manager s = [] := by
  cases rounds with
  | zero => rfl
  | succ rounds => rw [selections, ended]

/-- Of a list of one goal, that goal is selected, and no other. -/
theorem selections_singleton (rounds : ℕ) (goal : Goal) (s : LifeCycle σ C P) :
    selections env depth (rounds + 1) { targetGoals := [goal] } s =
      [⟨goal, s, (runGoal env depth goal).run s⟩] := by
  rw [selections]
  change (⟨goal, s, (runGoal env depth goal).run s⟩ : Selection σ C P) :: _ = _
  congr 1
  cases run : (runGoal env depth goal).run s with
  | error e t => rfl
  | ok _ t =>
    apply selections_of_none
    rw [nextGoal_eq_of_run_runGoal run]
    rfl

end Loop

/-- One goal is run for a request of any class. -/
theorem RequestClass.exists_targetGoals_eq (kind : RequestClass) :
    ∃ goal, kind.targetGoals = [goal] := by
  cases kind with
  | request => exact ⟨_, rfl⟩
  | trainingRequest => exact ⟨_, rfl⟩
  | roboticDataRequest => exact ⟨_, rfl⟩

/-- A request runs its work-flow exactly when the models of its domain can be loaded, no action
names a next goal of the work-flow, and the overload of its class runs that work-flow:
it does so but for a plain `Request`, for which there is only the case that an action
names another goal. The bound on the number of rounds is no less than the length of any
work-flow. -/
theorem runsWorkflow_iff (memory : ModelMemory σ) (env : Environment σ C P) (depth rounds : ℕ)
    (kind : RequestClass) (request : TrainingRequest) (s : LifeCycle σ C P) :
    RunsWorkflow memory env depth (rounds + 4) kind request s ↔
      (∃ t, (initializeGlobalContext memory request).run s = .ok () t) ∧
      (∀ selection ∈ selectionsOf memory env depth (rounds + 4) kind request s,
        ∀ goal ∈ selection.named, goal.name ∉ kind.workflow.map Goal.name) ∧
      (kind = .request → ∃ selection ∈
        selectionsOf memory env depth (rounds + 4) kind request s, selection.named ≠ []) := by
  obtain ⟨goal, single⟩ := kind.exists_targetGoals_eq
  cases run : (initializeGlobalContext memory request).run s with
  | error e t =>
    -- nothing is selected when the models cannot be loaded, and the work-flow is not empty
    have nothing : selectionsOf memory env depth (rounds + 4) kind request s = [] := by
      rw [selectionsOf, run]
    refine iff_of_false (fun runs => ?_) fun ⟨⟨_, returned⟩, _⟩ => nomatch returned
    obtain ⟨-, _, returned, -⟩ := runs.inOrder (by rw [nothing]; exact List.forall_mem_nil _)
    rw [run] at returned
    cases returned
  | ok _ t =>
    -- there is one target goal, so exactly one selection
    have selected : selectionsOf memory env depth (rounds + 4) kind request s =
        [⟨goal, t, (runGoal env depth goal).run t⟩] := by
      rw [selectionsOf, run, single]
      exact selections_singleton (rounds + 3) goal t
    have linked := linked_selections env depth (rounds + 4) { targetGoals := kind.targetGoals } t
    constructor
    · intro runs
      refine ⟨⟨t, rfl⟩, fun selection member named names belongs => ?_, fun plain => ?_⟩
      · -- there is no second selection that could be of the named goal
        rw [selected, List.mem_singleton] at member
        have next := runs.honoured 0 selection (by rw [selected, member]; rfl) named names belongs
        rw [selected] at next
        cases next
      · by_contra silent
        have ordered := (runs.inOrder fun selection member => by
          by_contra named
          exact silent ⟨selection, member, named⟩).1
        have lengths := congrArg List.length ordered
        rw [selected, plain] at lengths
        cases lengths
    · rintro ⟨-, unnamed, plain⟩
      constructor
      · intro silent
        have kinds : kind.workflow = kind.targetGoals := by
          cases kind with
          | request =>
            obtain ⟨selection, member, named⟩ := plain rfl
            exact absurd (silent selection member) named
          | trainingRequest => rfl
          | roboticDataRequest => rfl
        refine ⟨by rw [selected, kinds, single]; rfl, t, run, ?_⟩
        rw [selectionsOf, run]
        exact linked
      · intro i selection member named names belongs
        exact absurd belongs (unnamed selection (List.mem_of_getElem? member) named names)

/-! ### A plain request -/

/-- Actions that answer with an empty context. -/
def idleActions : Environment Unit ConceptRef PhraseRef where
  goalResourceMap := KBAdapter.goalResourceMap
  uriName _ := ""
  getReflectiveCritics _ := .ok KBAdapter.defaultSelfReflectiveCritics
  act _ _ _ := ({ answer := .ok (.fresh {}) }, ())

/-- A memory with one model. -/
def singleModel : ModelMemory Unit where
  domainModel _ := pure 1
  simulationModel _ := pure 1
  reformulationModel _ := pure 1
  solutions _ := pure []
  saveModel _ _ := pure ()
  nodes _ _ := []
  setNodes _ _ _ := ()

/-- For a plain `Request` the goal for robotic data is selected. -/
theorem request_runs_roboticDataWorkflow :
    ¬ RunsWorkflow singleModel idleActions 1 4 .request ⟨.other 0 0, 5⟩
      { globalContext := {}, world := () } := by
  intro runs
  have observed : (selectionsOf singleModel idleActions 1 4 .request ⟨.other 0 0, 5⟩
      { globalContext := {}, world := () }).map (fun selection =>
        (selection.goal.name, selection.named)) = [("ProcessRoboticDataRequest", [])] := by
    decide +kernel
  have silent : ∀ selection ∈ selectionsOf singleModel idleActions 1 4 .request ⟨.other 0 0, 5⟩
      { globalContext := {}, world := () }, selection.named = [] := by
    intro selection member
    have image := List.mem_map_of_mem (f := fun selection : Selection Unit ConceptRef PhraseRef =>
      (selection.goal.name, selection.named)) member
    rw [observed, List.mem_singleton] at image
    exact (Prod.mk.inj image).2
  have ordered := congrArg List.length (runs.inOrder silent).1
  have lengths := congrArg List.length observed
  rw [List.length_map] at ordered lengths
  rw [lengths] at ordered
  cases ordered

end ThinkingUnderstanding
