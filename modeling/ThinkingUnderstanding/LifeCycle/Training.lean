import ThinkingUnderstanding.LifeCycle.ThinkingLifeCycle
import ThinkingUnderstanding.Semantics.PartOfState

/-!
# Training

`ThinkingLifeCycleMinimal.apply(TrainingRequest)` loads the models of the domain, runs the
training work-flow, and commits: when the last result is a concept network and there is a
domain model, the nodes of the result are appended to those of the model, and the model
is saved.

The long-term memory is taken as an interface: its programs, and the node lists of the
networks it holds. A run returns, besides the global context, the network and the node
list it has saved.

## Main definitions

* `ModelMemory` — the memory the life cycle reads and writes
* `initializeGlobalContext`, `commitTraining`, `applyTraining` — the methods of
  `ThinkingLifeCycleMinimal`
* `TrainingKept` — the contract of a training
* `TrainingSettles` — the condition under which it is kept

## Main results

* `trainingKept_iff` — for one training, and for sequences of trainings
-/

namespace ThinkingUnderstanding

open Math Semantics ThinkingLifeCycle

/-- The operations of `LongTermMemory` on a world `σ`, and the node lists in it. -/
structure ModelMemory (σ : Type) where
  domainModel : UriRef → EStateM Failure σ NetworkRef
  simulationModel : UriRef → EStateM Failure σ NetworkRef
  reformulationModel : UriRef → EStateM Failure σ NetworkRef
  /-- References of the `SolvedIssue`s. -/
  solutions : UriRef → EStateM Failure σ (List ℕ)
  saveModel : UriRef → NetworkRef → EStateM Failure σ Unit
  /-- `ConceptNetwork.nodes`. -/
  nodes : σ → NetworkRef → List ConceptRef
  /-- `ConceptNetwork.nodes = aNodes`. -/
  setNodes : NetworkRef → List ConceptRef → σ → σ

/-- `TrainingRequest`. -/
structure TrainingRequest where
  inputResource : Resource
  domainName : UriRef

/-- What a training leaves: the global context, and the network and node list saved. -/
structure Trained (C P : Type) where
  globalContext : ShortTermMemory C P
  stored : Option (NetworkRef × List ConceptRef)

namespace Training

variable {σ C P : Type} (memory : ModelMemory σ)

/-- Run a program of the long-term memory on the world. -/
def onWorld {α : Type} (program : EStateM Failure σ α) : Program σ C P α := fun s =>
  match program.run s.world with
  | .ok a world => .ok a { s with world }
  | .error e world => .error e { s with world }

/-- `ThinkingLifeCycleMinimal.initializeGlobalContext`. -/
def initializeGlobalContext (request : TrainingRequest) : Program σ C P Unit := do
  modify fun s => { s with
    globalContext := ContextHelper.ofLastResult [request.inputResource] request.inputResource }
  let domainModel ← onWorld (memory.domainModel request.domainName)
  modify fun s => { s with
    globalContext := { s.globalContext with domainModel := some domainModel } }
  let simulationModel ← onWorld (memory.simulationModel request.domainName)
  modify fun s => { s with
    globalContext := { s.globalContext with simulationModel := some simulationModel } }
  let reformulationModel ← onWorld (memory.reformulationModel request.domainName)
  modify fun s => { s with
    globalContext := { s.globalContext with reformulationModel := some reformulationModel } }
  let solutions ← onWorld (memory.solutions request.domainName)
  modify fun s => { s with globalContext := { s.globalContext with solutions := solutions } }

/-- What follows the work-flow: the last result is committed to the domain model. -/
def commitTraining (request : TrainingRequest) : Program σ C P (Trained C P) := do
  let s ← get
  match s.globalContext.lastResult with
  | some (.conceptNetwork r _) =>
      match s.globalContext.domainModel with
      | some model =>
          let nodes := memory.nodes s.world model ++ memory.nodes s.world r
          set { s with world := memory.setNodes model nodes s.world }
          onWorld (memory.saveModel request.domainName model)
          return ⟨(← get).globalContext, some (model, nodes)⟩
      | none => return ⟨s.globalContext, none⟩
  | none => return ⟨s.globalContext, none⟩
  | some value => throw (.matchError value)

variable [DecidableEq C] [DecidableEq P] (env : Environment σ C P)

/-- The work-flow of a training: the models are loaded and the goals run. -/
def workflow (depth rounds : ℕ) (request : TrainingRequest) : Program σ C P Unit := do
  initializeGlobalContext memory request
  runGoals env depth rounds KBAdapter.trainingWorkflow

/-- `ThinkingLifeCycleMinimal.apply(request: TrainingRequest)`. -/
def applyTraining (depth rounds : ℕ) (request : TrainingRequest) :
    Program σ C P (Trained C P) := do
  workflow memory env depth rounds request
  commitTraining memory request

/-- The contract of a commit from state `s`. With a network as last result and a model, a
list is saved as the nodes of the model in which each of its nodes before the commit and
each node of the result occurs, exactly once. Otherwise the commit returns and leaves the
world as it was. -/
def CommitKept (s : LifeCycle σ C P)
    (result : EStateM.Result Failure (LifeCycle σ C P) (Trained C P)) : Prop :=
  match s.globalContext.lastResult, s.globalContext.domainModel with
  | some (.conceptNetwork r _), some model =>
      ∃ trained s' nodes, result = .ok trained s' ∧ trained.stored = some (model, nodes) ∧
        nodes.Nodup ∧ ∀ c, c ∈ memory.nodes s.world model ∨ c ∈ memory.nodes s.world r → c ∈ nodes
  | _, _ => ∃ trained s', result = .ok trained s' ∧ trained.stored = none ∧ s'.world = s.world

/-- The contract of a training from state `s`: the work-flow ends normally, and the
commit keeps its contract. -/
def TrainingKept (depth rounds : ℕ) (request : TrainingRequest) (s : LifeCycle σ C P) : Prop :=
  ∃ s₁, (workflow memory env depth rounds request).run s = .ok () s₁ ∧
    CommitKept memory s₁ ((applyTraining memory env depth rounds request).run s)

/-- The last result is a network and there is a model, the node lists of the two have no
node in common and no repetition, and the memory accepts the model with both; or the last
result is a network and there is no model; or there is no last result. -/
def CommitSettles (request : TrainingRequest) (s : LifeCycle σ C P) : Prop :=
  match s.globalContext.lastResult, s.globalContext.domainModel with
  | some (.conceptNetwork r _), some model =>
      (memory.nodes s.world model ++ memory.nodes s.world r).Nodup ∧
        ∃ world, (memory.saveModel request.domainName model).run
          (memory.setNodes model (memory.nodes s.world model ++ memory.nodes s.world r) s.world) =
            .ok () world
  | some (.conceptNetwork _ _), none => True
  | none, _ => True
  | some _, _ => False

/-- The work-flow ends normally in a state from which the commit settles. -/
def TrainingSettles (depth rounds : ℕ) (request : TrainingRequest) (s : LifeCycle σ C P) :
    Prop :=
  ∃ s₁, (workflow memory env depth rounds request).run s = .ok () s₁ ∧
    CommitSettles memory request s₁

/-- Every training of a sequence settles from the state in which it starts. -/
def TrainingsSettle (depth rounds : ℕ) : List TrainingRequest → LifeCycle σ C P → Prop
  | [], _ => True
  | request :: rest, s =>
      TrainingSettles memory env depth rounds request s ∧
        ∀ trained s', (applyTraining memory env depth rounds request).run s = .ok trained s' →
          TrainingsSettle depth rounds rest s'

variable {memory env}

omit [DecidableEq C] [DecidableEq P] in
theorem run_onWorld {α : Type} (program : EStateM Failure σ α) (s : LifeCycle σ C P) :
    (onWorld program).run s =
      match program.run s.world with
      | .ok a world => .ok a { s with world }
      | .error e world => .error e { s with world } := rfl

omit [DecidableEq C] [DecidableEq P] in
theorem onPart_onWorld {α : Type} (program : EStateM Failure σ α) :
    OnPart (LifeCycle.world (C := C) (P := P)) (fun s world => { s with world })
      (onWorld program) program where
  run_of_ok run := by rw [run_onWorld, run]
  run_of_error run := by rw [run_onWorld, run]

omit [DecidableEq C] [DecidableEq P] in
/-- A commit of a network to a model saves the appended list, if the memory accepts it. -/
theorem run_commitTraining_of_network {request : TrainingRequest} {s : LifeCycle σ C P}
    {r model : NetworkRef} {uri : UriRef}
    (last : s.globalContext.lastResult = some (.conceptNetwork r uri))
    (present : s.globalContext.domainModel = some model) {trained : Trained C P}
    {s' : LifeCycle σ C P} :
    (commitTraining memory request).run s = .ok trained s' ↔
      ∃ world, (memory.saveModel request.domainName model).run (memory.setNodes model
          (memory.nodes s.world model ++ memory.nodes s.world r) s.world) = .ok () world ∧
        s' = { s with world } ∧ trained = ⟨s.globalContext,
          some (model, memory.nodes s.world model ++ memory.nodes s.world r)⟩ := by
  have saving : (commitTraining memory request).run s = (do
      onWorld (memory.saveModel request.domainName model)
      return ⟨(← get).globalContext,
        some (model, memory.nodes s.world model ++ memory.nodes s.world r)⟩ :
        Program σ C P (Trained C P)).run { s with world := (memory.setNodes model
          (memory.nodes s.world model ++ memory.nodes s.world r) s.world) } := by
    simp only [commitTraining, EStateM.run_bind, EStateM.run_get, EStateM.run_set, last, present]
  rw [saving]
  constructor
  · intro run
    obtain ⟨_, _, saved, run⟩ := run_bind_eq_ok_iff.mp run
    obtain ⟨world, accepted, rfl⟩ := (onPart_onWorld _).run_eq_ok_iff.mp saved
    cases run
    exact ⟨world, accepted, rfl, rfl⟩
  · rintro ⟨world, saved, rfl, rfl⟩
    exact run_bind_eq_ok_iff.mpr ⟨_, _, (onPart_onWorld _).run_eq_ok_iff.mpr ⟨world, saved, rfl⟩, rfl⟩

omit [DecidableEq C] [DecidableEq P] in
/-- A commit keeps its contract exactly when it settles. -/
theorem commitKept_iff (request : TrainingRequest) (s : LifeCycle σ C P) :
    CommitKept memory s ((commitTraining memory request).run s) ↔
      CommitSettles memory request s := by
  unfold CommitKept CommitSettles
  cases last : s.globalContext.lastResult with
  | none =>
    -- without a network, or without a domain model, there is nothing to commit
    refine iff_of_true ⟨⟨s.globalContext, none⟩, s, ?_, rfl, rfl⟩ trivial
    simp only [commitTraining, EStateM.run_bind, EStateM.run_get, last, EStateM.run_pure]
  | some value =>
    cases value with
    | conceptNetwork r uri =>
      cases present : s.globalContext.domainModel with
      | none =>
        refine iff_of_true ⟨⟨s.globalContext, none⟩, s, ?_, rfl, rfl⟩ trivial
        simp only [commitTraining, EStateM.run_bind, EStateM.run_get, last, present,
          EStateM.run_pure]
      | some model =>
        constructor
        · rintro ⟨trained, s', nodes, run, stored, nodup, -⟩
          obtain ⟨world, saved, rfl, rfl⟩ :=
            (run_commitTraining_of_network last present).mp run
          obtain ⟨-, rfl⟩ := Prod.mk.inj (Option.some.inj stored)
          exact ⟨nodup, world, saved⟩
        · rintro ⟨nodup, world, saved⟩
          refine ⟨_, _, _, (run_commitTraining_of_network last present).mpr
            ⟨world, saved, rfl, rfl⟩, rfl, nodup, fun c => List.mem_append.mpr⟩
    | selectorRequest request' =>
      -- another result matches no case: the exception comes before anything is saved
      refine iff_of_false ?_ id
      rintro ⟨trained, s', run, -⟩
      simp only [commitTraining, EStateM.run_bind, EStateM.run_get, last] at run
      cases run
    | other object uri =>
      refine iff_of_false ?_ id
      rintro ⟨trained, s', run, -⟩
      simp only [commitTraining, EStateM.run_bind, EStateM.run_get, last] at run
      cases run

theorem run_applyTraining_of_workflow {depth rounds : ℕ} {request : TrainingRequest}
    {s s₁ : LifeCycle σ C P}
    (ended : (workflow memory env depth rounds request).run s = .ok () s₁) :
    (applyTraining memory env depth rounds request).run s =
      (commitTraining memory request).run s₁ := by
  simp only [applyTraining, EStateM.run_bind, ended]

/-- A training that settles returns, and what it has saved has no repetition. -/
theorem TrainingSettles.returns {depth rounds : ℕ} {request : TrainingRequest}
    {s : LifeCycle σ C P} (settles : TrainingSettles memory env depth rounds request s) :
    ∃ trained s', (applyTraining memory env depth rounds request).run s = .ok trained s' ∧
      ∀ model nodes, trained.stored = some (model, nodes) → nodes.Nodup := by
  obtain ⟨s₁, ended, settles⟩ := settles
  have kept := (commitKept_iff request s₁).mpr settles
  rw [run_applyTraining_of_workflow ended]
  unfold CommitKept at kept
  split at kept
  · obtain ⟨trained, s', nodes, run, stored, nodup, -⟩ := kept
    refine ⟨trained, s', run, fun model' nodes' same => ?_⟩
    obtain ⟨-, rfl⟩ := Prod.mk.inj (Option.some.inj (stored.symm.trans same))
    exact nodup
  · obtain ⟨trained, s', run, stored, -⟩ := kept
    refine ⟨trained, s', run, fun model' nodes' same => ?_⟩
    rw [stored] at same
    cases same

/-- A training keeps its contract exactly when it settles; and in every sequence of
trainings that settle, each returns, and no node list that is saved has a repetition. -/
theorem trainingKept_iff (memory : ModelMemory σ) (env : Environment σ C P)
    (depth rounds : ℕ) :
    (∀ request s, TrainingKept memory env depth rounds request s ↔
      TrainingSettles memory env depth rounds request s) ∧
    ∀ requests s, TrainingsSettle memory env depth rounds requests s →
      ∃ results s', (requests.mapM (applyTraining memory env depth rounds)).run s =
          .ok results s' ∧
        ∀ trained ∈ results, ∀ model nodes, trained.stored = some (model, nodes) →
          nodes.Nodup := by
  constructor
  · intro request s
    refine exists_congr fun s₁ => and_congr_right fun ended => ?_
    rw [run_applyTraining_of_workflow ended]
    exact commitKept_iff request s₁
  · intro requests
    -- on the requests; each settles in the state that the ones before it have left
    induction requests with
    | nil => exact fun s _ => ⟨[], s, rfl, fun _ member => nomatch member⟩
    | cons request rest ih =>
      rintro s ⟨settles, later⟩
      obtain ⟨trained, s', run, nodup⟩ := settles.returns
      obtain ⟨results, s'', runs, nodups⟩ := ih s' (later trained s' run)
      refine ⟨trained :: results, s'', ?_, ?_⟩
      · rw [List.mapM_cons]
        exact run_bind_eq_ok_iff.mpr ⟨_, _, run, run_bind_eq_ok_iff.mpr ⟨_, _, runs, rfl⟩⟩
      · intro t member
        rcases List.mem_cons.mp member with rfl | inside
        · exact nodup
        · exact nodups t inside

/-! ### Training with what the model knows

The work-flow of the source ends with `CorrelationWay2Think`, whose result is made of
paths into the model. Here the result is the node that the model has already. -/

/-- A memory with the model `1`, which accepts every save. -/
def oneModel : ModelMemory (List (NetworkRef × List ConceptRef)) where
  domainModel _ := pure 1
  simulationModel _ := pure 1
  reformulationModel _ := pure 1
  solutions _ := pure []
  saveModel _ _ := pure ()
  nodes world network := (world.lookup network).getD []
  setNodes network nodes world := (network, nodes) :: world

/-- The tables of the source, with a correlation that results in the network `2`. -/
def correlating :
    Environment (List (NetworkRef × List ConceptRef)) ConceptRef PhraseRef where
  goalResourceMap := KBAdapter.goalResourceMap
  uriName _ := ""
  getReflectiveCritics _ := .ok KBAdapter.defaultSelfReflectiveCritics
  act name _ world :=
    if name = "tu.coreservice.action.way2think.correlation.CorrelationWay2Think" then
      ({ answer := .ok (.fresh { lastResult := some (.conceptNetwork 2 20) }) }, world)
    else
      ({ answer := .ok (.fresh {}) }, world)

theorem training_repeats_node :
    ¬ TrainingKept oneModel correlating 1 1 { inputResource := .other 0 0, domainName := 5 }
      { globalContext := {}, world := [(1, [7]), (2, [7])] } := by
  rintro ⟨s₁, ended, kept⟩
  have observed : (match (workflow oneModel correlating 1 1
        { inputResource := .other 0 0, domainName := 5 }).run
          { globalContext := {}, world := [(1, [7]), (2, [7])] } with
      | .ok _ s => some (s.globalContext.lastResult, s.globalContext.domainModel, s.world)
      | .error _ _ => none) =
        some (some (.conceptNetwork 2 20), some 1, [(1, [7]), (2, [7])]) := by
    decide +kernel
  rw [ended] at observed
  obtain ⟨last, rest⟩ := Prod.mk.inj (Option.some.inj observed)
  obtain ⟨present, world⟩ := Prod.mk.inj rest
  rw [run_applyTraining_of_workflow ended, commitKept_iff, CommitSettles] at kept
  simp only [last, present, world] at kept
  exact absurd kept.1 (by decide)

end Training

end ThinkingUnderstanding
