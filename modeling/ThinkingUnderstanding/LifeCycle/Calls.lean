import ThinkingUnderstanding.LifeCycle.Record
import ThinkingUnderstanding.Semantics.Forgetting

/-!
# The calls of a run

An actor is asked with the context and the world as they are when it is asked. A run with actors
that note each call ends like the run without the notes, so what has been noted are the calls that
the run makes. What every one of them keeps, the run keeps.

## Main definitions

* `Call`, `Environment.noting` — calls, and actors that note them
* `ThinkingLifeCycle.callsOf` — the calls of a run
* `Environment.Keeps` — a call keeps a property of the world

## Main results

* `ThinkingLifeCycle.forgets_runGoals` — without the notes, the run is the same
* `ThinkingLifeCycle.holds_runGoals` — what the calls keep, the run keeps
-/

namespace ThinkingUnderstanding

open Semantics

variable {σ C P : Type}

/-- A call of an actor: its name, and the context and the world that it is given. -/
structure Call (σ C P : Type) where
  name : String
  context : ShortTermMemory C P
  world : σ

namespace Environment

variable (env : Environment σ C P)

/-- The same actors, with notes of their calls beside the world. -/
def noting : Environment (σ × List (Call σ C P)) C P where
  goalResourceMap := env.goalResourceMap
  uriName := env.uriName
  getReflectiveCritics s := env.getReflectiveCritics s.1
  act name ctx s :=
    let (reply, world) := env.act name ctx s.1
    (reply, world, s.2 ++ [⟨name, ctx, s.1⟩])

/-- The world has the property after the call if it has it before. -/
def Keeps (I : σ → Prop) (call : Call σ C P) : Prop :=
  I call.world → I (env.act call.name call.context call.world).2

end Environment

namespace LifeCycle

/-- A state in which no call has been noted. -/
def noted (s : LifeCycle σ C P) : LifeCycle (σ × List (Call σ C P)) C P :=
  { globalContext := s.globalContext, world := (s.world, []), record := s.record }

/-- A state without the notes. -/
def unnoted (s : LifeCycle (σ × List (Call σ C P)) C P) : LifeCycle σ C P :=
  { globalContext := s.globalContext, world := s.world.1, record := s.record }

@[simp]
theorem globalContext_unnoted (s : LifeCycle (σ × List (Call σ C P)) C P) :
    s.unnoted.globalContext = s.globalContext :=
  rfl

end LifeCycle

namespace ThinkingLifeCycle

variable (env : Environment σ C P)

/-! ### Without the notes -/

theorem forgets_ask (name : String) :
    Forgets LifeCycle.unnoted id (ask env.noting name) (ask env name) := by
  intro s
  rcases answered : env.act name s.globalContext s.world.1 with ⟨reply, world⟩
  have noted : env.noting.act name s.globalContext s.world =
      (reply, world, s.world.2 ++ [⟨name, s.globalContext, s.world.1⟩]) := by
    simp only [Environment.noting, answered]
  have seen : env.act name s.unnoted.globalContext s.unnoted.world = (reply, world) := answered
  simp only [ask, EStateM.run_bind, EStateM.run_get, EStateM.run_set, noted, seen]
  cases reply.answer with
  | ok context => rfl
  | error message => rfl

mutual

theorem forgets_translate : ∀ resource,
    Forgets LifeCycle.unnoted id (translate env.noting resource) (translate env resource)
  | .way2Think name => (forgets_ask env name).bind fun _ => .pure rfl
  | .critic name => (forgets_ask env name).bind fun _ => .pure rfl
  | .join parameters _ =>
      (forgets_translateAll parameters).bind fun _ => .get_bind fun _ => .pure rfl

theorem forgets_translateAll : ∀ resources,
    Forgets LifeCycle.unnoted id (translateAll env.noting resources) (translateAll env resources)
  | [] => .pure rfl
  | resource :: rest =>
      (forgets_translate resource).bind fun _ => (forgets_translateAll rest).bind fun _ => .pure rfl

end

variable [DecidableEq C] [DecidableEq P]

omit env in
theorem forgets_copyGlobalContext (resContext : ShortTermMemory C P)
    (joined : List (List (ShortTermMemory C P))) :
    Forgets LifeCycle.unnoted id (copyGlobalContext resContext joined)
      (copyGlobalContext (σ := σ) resContext joined) :=
  fun _ => rfl

theorem forgets_processResourcesWith
    {process : SelectorRequest → Program (σ × List (Call σ C P)) C P (List (ShortTermMemory C P))}
    {process' : SelectorRequest → Program σ C P (List (ShortTermMemory C P))}
    (processed : ∀ request, Forgets LifeCycle.unnoted id (process request) (process' request))
    (resources : List ActionModel) (reflectiveFlag : Bool) :
    Forgets LifeCycle.unnoted id (processResourcesWith env.noting process resources reflectiveFlag)
      (processResourcesWith env process' resources reflectiveFlag) := by
  refine (Forgets.mapM resources fun resource _ => ?_).bind fun _ => .pure rfl
  refine (forgets_translate env resource).bind fun translated => .get_bind fun s => ?_
  refine (forgets_copyGlobalContext _ _).bind fun _ => ?_
  rw [LifeCycle.globalContext_unnoted, id_eq]
  split
  · exact processed _
  · exact .pure rfl

theorem forgets_processSelectorRequest : ∀ depth request,
    Forgets LifeCycle.unnoted id (processSelectorRequest env.noting depth request)
      (processSelectorRequest env depth request)
  | 0, _ => .throw _
  | depth + 1, _ =>
      forgets_processResourcesWith env (forgets_processSelectorRequest depth) _ true

theorem forgets_runGoal (depth : ℕ) (goal : Goal) :
    Forgets LifeCycle.unnoted id (runGoal env.noting depth goal) (runGoal env depth goal) := by
  have process := forgets_processResourcesWith env (forgets_processSelectorRequest env depth)
  have found : env.noting.getByGoalName goal.name = env.getByGoalName goal.name := rfl
  rw [runGoal, runGoal, found]
  cases env.getByGoalName goal.name with
  | none => exact .throw _
  | some resources =>
    refine (process resources false).bind fun contexts => ?_
    refine (forgets_copyGlobalContext _ _).bind fun _ => ?_
    refine Forgets.bind ?_ fun refContexts => forgets_copyGlobalContext _ _
    refine .get_bind fun s => ?_
    have critics : env.noting.getReflectiveCritics s.world =
        env.getReflectiveCritics s.unnoted.world := rfl
    rw [critics]
    cases env.getReflectiveCritics s.unnoted.world with
    | ok critics => exact process critics true
    | error message => exact .throw _

theorem forgets_runGoalsLoop (depth : ℕ) : ∀ rounds manager,
    Forgets LifeCycle.unnoted id (runGoalsLoop env.noting depth rounds manager)
      (runGoalsLoop env depth rounds manager)
  | 0, manager => by
      unfold runGoalsLoop
      split_ifs
      · exact .throw _
      · exact .pure rfl
  | rounds + 1, manager => by
      unfold runGoalsLoop
      cases manager.currentGoal with
      | none => exact .pure rfl
      | some goal =>
        refine (forgets_runGoal env depth goal).bind fun _ => .get_bind fun s => ?_
        rw [LifeCycle.globalContext_unnoted]
        rcases manager.nextGoal s.globalContext with ⟨answer, moved⟩
        cases answer with
        | ok _ => exact forgets_runGoalsLoop depth rounds moved
        | error e => exact .throw _

/-- Actors that note their calls run the goals as those that do not. -/
theorem forgets_runGoals (depth rounds : ℕ) (targetGoals : List Goal) :
    Forgets LifeCycle.unnoted id (runGoals env.noting depth rounds targetGoals)
      (runGoals env depth rounds targetGoals) :=
  forgets_runGoalsLoop env depth rounds _

/-! ### What the calls keep -/

/-- The calls that a run of the goals makes. -/
def callsOf (depth rounds : ℕ) (targetGoals : List Goal) (s : LifeCycle σ C P) :
    List (Call σ C P) :=
  (finalState ((runGoals env.noting depth rounds targetGoals).run s.noted)).world.2

omit [DecidableEq C] [DecidableEq P] in
/-- Calls have been noted. When all of them keep the property, the world keeps it. -/
structure Noted (I : σ → Prop) (s t : LifeCycle (σ × List (Call σ C P)) C P) : Prop where
  calls : s.world.2 <+: t.world.2
  holds : (∀ call ∈ t.world.2, env.Keeps I call) → I s.world.1 → I t.world.1

instance (I : σ → Prop) : IsPreorder (LifeCycle (σ × List (Call σ C P)) C P) (Noted env I) where
  refl _ := ⟨List.prefix_refl _, fun _ inv => inv⟩
  trans _ _ _ first second := by
    refine ⟨first.calls.trans second.calls, fun kept inv => second.holds kept ?_⟩
    exact first.holds (fun call member => kept call (second.calls.subset member)) inv

omit [DecidableEq C] [DecidableEq P] in
theorem noted_ask (I : σ → Prop) (name : String) :
    Respects (Noted env I) (ask env.noting name) := by
  intro s
  rcases answered : env.act name s.globalContext s.world.1 with ⟨reply, world⟩
  let made : Call σ C P := ⟨name, s.globalContext, s.world.1⟩
  have noted : env.noting.act name s.globalContext s.world =
      (reply, world, s.world.2 ++ [made]) := by
    simp only [Environment.noting, answered, made]
  have holds : (∀ call ∈ s.world.2 ++ [made], env.Keeps I call) → I s.world.1 → I world := by
    intro kept inv
    have last := kept made (List.mem_append_right _ (List.mem_singleton_self _)) inv
    rwa [answered] at last
  have after : Noted env I s { s with
      globalContext := reply.edit s.globalContext
      world := (world, s.world.2 ++ [made])
      record := s.record ++ [Event.edited s.globalContext (reply.edit s.globalContext)] } :=
    ⟨List.prefix_append _ _, holds⟩
  simp only [ask, EStateM.run_bind, EStateM.run_get, EStateM.run_set, noted]
  cases reply.answer with
  | ok context => exact after
  | error message => exact after

/-- A property of the world that each call of a run keeps holds after the run. -/
theorem holds_runGoals {I : σ → Prop} {depth rounds : ℕ} {targetGoals : List Goal}
    {s : LifeCycle σ C P} (inv : I s.world)
    (kept : ∀ call ∈ callsOf env depth rounds targetGoals s, env.Keeps I call) :
    I (finalState ((runGoals env depth rounds targetGoals).run s)).world := by
  have run := respects_runGoals env.noting (noted_ask env I)
    (fun _ _ _ => ⟨List.prefix_refl _, fun _ inv => inv⟩) depth rounds targetGoals s.noted
  have same := (forgets_runGoals env depth rounds targetGoals).finalState_run s.noted
  change finalState ((runGoals env depth rounds targetGoals).run s) = _ at same
  rw [same]
  exact run.holds kept inv

end ThinkingLifeCycle

end ThinkingUnderstanding
