import Mathlib.Data.List.Basic
import ThinkingUnderstanding.Context.ShortTermMemory
import ThinkingUnderstanding.Semantics.Linked
import ThinkingUnderstanding.Semantics.StateProgram

/-!
# The thinking life cycle

`ThinkingLifeCycleMinimal` runs a list of goals. For each goal it asks the selector for
the actions of the goal, has every action process the global context, and merges what
comes back into the global context. A selector request among the results starts the
actions it names, to any depth.

Actions run as actors. An action receives the global context itself, not a copy: it may
file resources in it and set its last result (the two critic families that do so assign
nothing else), and it returns either that same object or a new context, or fails. What
else the actors and the world around them do is the type `σ` and the function `act`.

The run keeps a record of the successive values of the global context. The record is
read by no function of the model; it is there to be reasoned about.

## Main definitions

* `ActionModel`, `Environment` — the actions, the tables of `KBAdapter`, the actors
* `LifeCycle` — the state of a run: global context, world, record of events
* `translate`, `copyGlobalContext`, `processResources`, `mergeContexts`, `runGoals` — the
  methods of `ThinkingLifeCycleMinimal`
-/

namespace ThinkingUnderstanding

open Math Semantics

/-- The subclasses of `ActionModel` that `translate` distinguishes or passes by name. -/
inductive ActionModel
  | way2Think (name : String)
  | critic (name : String)
  | join (parameters : List ActionModel) (name : String)

/-- `uri.name` of an action model, which is the class name of its actor. -/
def ActionModel.name : ActionModel → String
  | .way2Think name => name
  | .critic name => name
  | .join _ name => name

/-- Why a run ends with an exception. -/
inductive Failure
  /-- The `RuntimeException` of `translate`, whatever an actor call raises, and the
  `IndexOutOfBoundsException` of the goal manager. -/
  | runtimeException (message : String)
  /-- The `UnexpectedStateException` of the selector. -/
  | unexpectedState (goal : Goal)
  /-- A `match` without a case for the value. -/
  | matchError (value : Resource)
  /-- The run is cut off at the bound given for its depth or its length. -/
  | unfinished
  deriving DecidableEq, Repr

/-- A context an action returned: the object it was given, or another one. -/
inductive ReturnedContext (C P : Type)
  | given
  | fresh (ctx : ShortTermMemory C P)

namespace ReturnedContext

variable {C P : Type}

/-- The value of a returned context, when the given object has the value `g`. -/
def resolve (g : ShortTermMemory C P) : ReturnedContext C P → ShortTermMemory C P
  | given => g
  | fresh ctx => ctx

end ReturnedContext

/-- What an action does when it is asked: the resources it files in the context it was
given, the last result it sets there, and what it answers. -/
structure Reply (C P : Type) where
  filed : List (UriRef × Resource) := []
  lastResult : Option Resource := none
  answer : Except String (ReturnedContext C P)

/-- The context given to an action, after the action's assignments to it. -/
def Reply.edit {C P : Type} (reply : Reply C P) (ctx : ShortTermMemory C P) :
    ShortTermMemory C P :=
  let filed := { ctx with
    frames := reply.filed.foldl (fun acc entry => acc.insert entry.1 entry.2) ctx.frames }
  if reply.lastResult.isSome then filed.setLastResult reply.lastResult else filed

namespace KBAdapter

/-- The goals of `KBAdapter`, each `Goal(name)` an object of its own. -/
def goal (object : ℕ) (name : String) : Goal := { object, name }

/-- `KBAdapter.goalResourceMap`. -/
def goalResourceMap : InsertionMap Goal (List ActionModel) := .ofList
  [(goal 0 "ProcessIncident",
      [.way2Think "tu.coreservice.splitter.PreliminarySplitter",
        .way2Think "tu.coreservice.annotator.KBAnnotatorImpl",
        .way2Think "tu.coreservice.linkparser.LinkParser"]),
    (goal 1 "ClassifyIncident",
      [.join
        [.critic "tu.coreservice.action.critic.analyser.DirectInstructionAnalyserCritic",
          .critic "tu.coreservice.action.critic.analyser.ProblemDescriptionAnalyserCritic",
          .critic
            "tu.coreservice.action.critic.analyser.ProblemDescriptionWithDesiredStateAnalyserCritic"]
        "tu.model.knowledge.way2think.JoinWay2ThinkModel"]),
    (goal 2 "FormalizeDirectInstruction",
      [.way2Think "tu.coreservice.action.way2think.simulation.SimulationWay2Think"]),
    (goal 3 "FormalizeProblemDescription",
      [.way2Think "tu.coreservice.action.way2think.simulation.SimulationWay2Think",
        .way2Think "tu.coreservice.action.way2think.reformulation.ReformulationWay2Think"]),
    (goal 4 "GetMostProbableAction",
      [.way2Think "tu.coreservice.action.way2think.FindMostProbableAction"]),
    (goal 5 "SearchSolution", [.way2Think "tu.coreservice.action.way2think.SearchSolution"]),
    (goal 6 "ProcessResponse",
      [.way2Think "tu.coreservice.splitter.PreliminarySplitter",
        .way2Think "tu.coreservice.annotator.KBAnnotatorImpl",
        .way2Think "tu.coreservice.linkparser.LinkParser",
        .way2Think "tu.coreservice.action.way2think.simulation.CorrelationWay2Think"]),
    (goal 7 "Train",
      [.way2Think "tu.coreservice.splitter.PreliminarySplitter",
        .way2Think "tu.coreservice.annotator.KBAnnotatorImpl",
        .way2Think "tu.coreservice.linkparser.LinkParser",
        .way2Think "tu.coreservice.action.way2think.correlation.CorrelationWay2Think"]),
    (goal 8 "Cry4Help",
      [.way2Think "tu.coreservice.action.way2think.cry4help.Cry4HelpWay2Think"]),
    (goal 9 "ProcessRoboticDataRequest",
      [.critic "tu.coreservice.action.critic.robotic.UnderstandRequestCritic",
        .critic "tu.coreservice.action.critic.robotic.classifier.HandSpikeClassifierCritic",
        .critic "tu.coreservice.action.critic.robotic.classifier.DistanceSpikeClassifierCritic"]),
    (goal 10 "RoboticData",
      [.way2Think "tu.coreservice.action.way2think.spike.SpikeGeneratorWay2Think"])]

/-- `KBAdapter.workflow`. -/
def workflow : List Goal :=
  [goal 11 "ProcessIncident", goal 12 "ClassifyIncident", goal 13 "GetMostProbableAction",
    goal 14 "SearchSolution"]

/-- `KBAdapter.trainingWorkflow`. -/
def trainingWorkflow : List Goal := [goal 15 "Train"]

/-- `KBAdapter.roboticDataWorkflow`. -/
def roboticDataWorkflow : List Goal := [goal 16 "ProcessRoboticDataRequest"]

/-- `Defaults.defaultSelfReflectiveCritics`. -/
def defaultSelfReflectiveCritics : List ActionModel :=
  [.critic "tu.coreservice.action.critic.manager.DoNotUnderstandManager"]

end KBAdapter

/-- What the life cycle reads besides its own state: the tables of `KBAdapter`, the names
of URI objects, and the actors. -/
structure Environment (σ C P : Type) where
  goalResourceMap : InsertionMap Goal (List ActionModel)
  uriName : UriRef → String
  getReflectiveCritics : σ → Except String (List ActionModel)
  act : String → ShortTermMemory C P → σ → Reply C P × σ

namespace Environment

variable {σ C P : Type} (env : Environment σ C P)

/-- `KBAdapter.stringResourcesMap`. -/
def stringResourcesMap : InsertionMap String ActionModel :=
  .ofList (env.goalResourceMap.values.flatten.map fun r => (r.name, r))

/-- `KBAdapter.getByGoalName`: the resources of the first goal of that name. -/
def getByGoalName (name : String) : Option (List ActionModel) :=
  (env.goalResourceMap.keys.find? fun g => g.name = name).bind env.goalResourceMap.get?

/-- `Selector.apply(request)`: the registered actions among those requested. -/
def select (request : SelectorRequest) : List ActionModel :=
  request.resourceURIList.filterMap fun uri => env.stringResourcesMap.get? (env.uriName uri)

end Environment

/-- One call of `copyGlobalContext`: the global context before it, the context merged
into it, the contexts behind that one where it came from a join, and the outcome. -/
structure CopyStep (C P : Type) where
  base : ShortTermMemory C P
  returned : ShortTermMemory C P
  /-- For every join inside the translated resource, the contexts its actions returned. -/
  joined : List (List (ShortTermMemory C P))
  result : ShortTermMemory C P
  deriving DecidableEq

/-- A change of the global context. -/
inductive Event (C P : Type)
  /-- An action assigned to the context it was given. -/
  | edited (before after : ShortTermMemory C P)
  /-- A context was merged into the global context. -/
  | copied (step : CopyStep C P)
  deriving DecidableEq

namespace Event

variable {C P : Type}

/-- The global context before the event. -/
def before : Event C P → ShortTermMemory C P
  | edited before _ => before
  | copied step => step.base

/-- The global context after the event. -/
def after : Event C P → ShortTermMemory C P
  | edited _ after => after
  | copied step => step.result

end Event

/-- The state of a run. -/
structure LifeCycle (σ C P : Type) where
  globalContext : ShortTermMemory C P
  world : σ
  record : List (Event C P) := []

/-- A method of `ThinkingLifeCycleMinimal`. -/
abbrev Program (σ C P α : Type) := EStateM Failure (LifeCycle σ C P) α

/-- `IndexOutOfBoundsException`, with the index. -/
structure IndexOutOfBounds where
  index : Int32
  deriving DecidableEq

/-- `GoalManager`: the goals of a work-flow and the position in it, an `Int`. -/
structure GoalManager where
  targetGoals : List Goal
  currentIndex : Int32 := 0

namespace GoalManager

variable (manager : GoalManager)

/-- `targetGoals.size`, which is counted in an `Int`. -/
def size : Int32 := .ofNat manager.targetGoals.length

/-- `targetGoals(index)`. -/
def goalAt (index : Int32) : Except IndexOutOfBounds Goal :=
  if index < 0 then
    .error ⟨index⟩
  else
    match manager.targetGoals[index.toNatClampNeg]? with
    | some goal => .ok goal
    | none => .error ⟨index⟩

/-- `GoalManager.currentGoal`. -/
def currentGoal : Option Goal :=
  if manager.size ≤ manager.currentIndex ∨ manager.currentIndex < 0 then
    none
  else
    -- the index is within the list here
    manager.targetGoals[manager.currentIndex.toNatClampNeg]?

/-- `GoalManager.nextGoal`: the index is moved before the goal there is looked up, so it has moved
when that raises an exception. -/
def nextTargetGoal : Except IndexOutOfBounds (Option Goal) × GoalManager :=
  let moved := { manager with currentIndex := manager.currentIndex + 1 }
  (if moved.size ≤ moved.currentIndex then .ok none else some <$> moved.goalAt moved.currentIndex,
    moved)

/-- `GoalManager.nextGoal(inputContext)`: a goal the context asks for is returned without
moving on; otherwise the next goal becomes the current one. -/
def nextGoal {C P : Type} (inputContext : ShortTermMemory C P) :
    Except IndexOutOfBounds (Option Goal) × GoalManager :=
  match inputContext.nextGoal with
  | some goal => (.ok (some goal), manager)
  | none => manager.nextTargetGoal

end GoalManager

namespace ThinkingLifeCycle

variable {σ C P : Type}

/-- What `translate` returns, with the contexts that joins inside it have merged. -/
structure Translated (C P : Type) where
  context : ReturnedContext C P
  joined : List (List (ShortTermMemory C P))

/-- `ContextHelper.merge(contexts)` on returned contexts: a single one is returned as it
is, the same object. -/
def mergeReturned (g : ShortTermMemory C P) : List (ReturnedContext C P) → ReturnedContext C P
  | [context] => context
  | contexts => .fresh (ContextHelper.mergeAll (contexts.map (ReturnedContext.resolve g)))

/-- Ask the actor of an action, and wait for its answer. -/
def ask (env : Environment σ C P) (name : String) : Program σ C P (ReturnedContext C P) := do
  let s ← get
  let (reply, world) := env.act name s.globalContext s.world
  let edited := reply.edit s.globalContext
  set { s with
    globalContext := edited
    world := world
    record := s.record ++ [Event.edited s.globalContext edited] }
  match reply.answer with
  | .ok context => pure context
  | .error message => throw (.runtimeException message)

mutual

/-- `ThinkingLifeCycleMinimal.translate`. -/
def translate (env : Environment σ C P) : ActionModel → Program σ C P (Translated C P)
  | .way2Think name => do return ⟨← ask env name, []⟩
  | .critic name => do return ⟨← ask env name, []⟩
  | .join parameters _ => do
      let results ← translateAll env parameters
      let g := (← get).globalContext
      let contexts := results.map Translated.context
      return ⟨mergeReturned g contexts,
        contexts.map (ReturnedContext.resolve g) :: results.flatMap Translated.joined⟩

/-- The loop of `translate` over the parameters of a join. -/
def translateAll (env : Environment σ C P) :
    List ActionModel → Program σ C P (List (Translated C P))
  | [] => pure []
  | action :: rest => do
      let result ← translate env action
      let results ← translateAll env rest
      return result :: results

end

section Merging

variable [DecidableEq C] [DecidableEq P]

/-- `ThinkingLifeCycleMinimal.copyGlobalContext`. -/
def copyGlobalContext (resContext : ShortTermMemory C P)
    (joined : List (List (ShortTermMemory C P)) := []) : Program σ C P Unit := do
  let s ← get
  let result :=
    ContextHelper.mergeWithBaseContext s.globalContext [s.globalContext, resContext]
  set { s with
    globalContext := result
    record := s.record ++ [Event.copied ⟨s.globalContext, resContext, joined, result⟩] }

/-- `ThinkingLifeCycleMinimal.processResources`, given the treatment of selector requests. -/
def processResourcesWith (env : Environment σ C P)
    (processSelectorRequest : SelectorRequest → Program σ C P (List (ShortTermMemory C P)))
    (resources : List ActionModel) (reflectiveFlag : Bool) :
    Program σ C P (List (ShortTermMemory C P)) := do
  let contexts ← resources.mapM fun r => do
    let translated ← translate env r
    let resContext := translated.context.resolve (← get).globalContext
    copyGlobalContext resContext translated.joined
    match if reflectiveFlag then resContext.lastReflectiveResult else resContext.lastResult with
    | some (.selectorRequest sR) => processSelectorRequest sR
    | _ => pure [resContext]
  return contexts.flatten

/-- `ThinkingLifeCycleMinimal.processSelectorRequest`. Requests can lead to requests
without end, so the depth is bounded. -/
def processSelectorRequest (env : Environment σ C P) :
    ℕ → SelectorRequest → Program σ C P (List (ShortTermMemory C P))
  | 0, _ => throw .unfinished
  | depth + 1, request =>
      processResourcesWith env (processSelectorRequest env depth) (env.select request) true

/-- `ThinkingLifeCycleMinimal.processResources`. -/
def processResources (env : Environment σ C P) (depth : ℕ) (resources : List ActionModel)
    (reflectiveFlag : Bool := false) : Program σ C P (List (ShortTermMemory C P)) :=
  processResourcesWith env (processSelectorRequest env depth) resources reflectiveFlag

/-- `ThinkingLifeCycleMinimal.mergeContexts`. -/
def mergeContexts (contexts : List (ShortTermMemory C P)) : Program σ C P Unit :=
  copyGlobalContext (ContextHelper.mergeLast contexts)

/-- `ThinkingLifeCycleMinimal.processReflectiveCritics`. -/
def processReflectiveCritics (env : Environment σ C P) (depth : ℕ) :
    Program σ C P (List (ShortTermMemory C P)) := do
  match env.getReflectiveCritics (← get).world with
  | .ok reflectiveCritics => processResources env depth reflectiveCritics true
  | .error message => throw (.runtimeException message)

/-- One round of the loop of `runGoals`. -/
def runGoal (env : Environment σ C P) (depth : ℕ) (goal : Goal) : Program σ C P Unit := do
  match env.getByGoalName goal.name with
  | some resources =>
      let contexts ← processResources env depth resources
      mergeContexts contexts
      let refContexts ← processReflectiveCritics env depth
      mergeContexts refContexts
  | none => throw (.unexpectedState goal)

/-- The loop of `runGoals`, of at most `rounds` rounds. -/
def runGoalsLoop (env : Environment σ C P) (depth : ℕ) : ℕ → GoalManager → Program σ C P Unit
  | 0, manager => if manager.currentGoal.isSome then throw .unfinished else pure ()
  | rounds + 1, manager =>
      match manager.currentGoal with
      | some goal => do
          runGoal env depth goal
          match manager.nextGoal (← get).globalContext with
          | (.ok _, moved) => runGoalsLoop env depth rounds moved
          | (.error e, _) => throw (.runtimeException (toString e.index))
      | none => pure ()

/-- `ThinkingLifeCycleMinimal.runGoals`, with bounds on its depth and its length. -/
def runGoals (env : Environment σ C P) (depth rounds : ℕ) (targetGoals : List Goal) :
    Program σ C P Unit :=
  runGoalsLoop env depth rounds { targetGoals }

end Merging

end ThinkingLifeCycle

end ThinkingUnderstanding
