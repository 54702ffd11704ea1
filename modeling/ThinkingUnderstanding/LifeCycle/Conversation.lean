import ThinkingUnderstanding.LifeCycle.Workflow

/-!
# A life cycle as a conversation

A life cycle asks one actor after another, and waits for each answer before it goes on. What
it does next depends on the answers alone: it is found by running it against a script of the
answers it has got so far. The run stops at the first question that has no answer in the
script, and this is what the life cycle is waiting for. So life cycles that share actors can be
interleaved at their questions, each of them being run as it stands.

A conversation is described by a list of exchanges: whom the life cycle asks, what is known of
the context it asks with, and what is known of the answer. That a method follows the exchanges
says both how it ends when all of them have an answer and what it asks when some have not.

## Main definitions

* `Script`, `Script.act` — actors that answer from a script
* `Conversation`, `conversation` — what a life cycle does next
* `Exchange`, `Follows` — the conversation of a method

## Main results

* `Follows.bind` — the exchanges of a sequence of methods
* `follows_ask` — a question is one exchange
* `Follows.conversation` — what a life cycle waits for, or returns
-/

namespace ThinkingUnderstanding

open Semantics ThinkingLifeCycle

variable {C P : Type}

/-- The answers that actors have still to give, and the question they have no answer to. -/
structure Script (C P : Type) where
  replies : List (Reply C P)
  asked : Option (String × ShortTermMemory C P) := none

/-- The next answer of the script. Without one the question is noted, and the run stops. -/
def Script.act (name : String) (ctx : ShortTermMemory C P) (script : Script C P) :
    Reply C P × Script C P :=
  match script.replies with
  | reply :: rest => (reply, { script with replies := rest })
  | [] => ({ answer := .error "no answer yet" }, { script with asked := some (name, ctx) })

/-- An answer that is a new context; nothing is assigned to the context that was given. -/
def Reply.new (ctx : ShortTermMemory C P) : Reply C P := { answer := .ok (.fresh ctx) }

/-- What a life cycle does next. -/
inductive Conversation (C P : Type)
  | waiting (name : String) (ctx : ShortTermMemory C P)
  | returned (ctx : ShortTermMemory C P)
  | failed

/-- What a life cycle does after the answers it has heard. -/
def conversation (program : Program (Script C P) C P (ShortTermMemory C P))
    (heard : List (Reply C P)) : Conversation C P :=
  match program.run { globalContext := {}, world := { replies := heard } } with
  | .ok ctx _ => .returned ctx
  | .error _ s =>
      match s.world.asked with
      | some (name, ctx) => .waiting name ctx
      | none => .failed

/-- A question to an actor and its answer. -/
structure Exchange (C P : Type) where
  name : String
  asked : ShortTermMemory C P → Prop
  answered : ShortTermMemory C P → Prop

/-- Contexts that answer the exchanges. -/
def Answers (exchanges : List (Exchange C P)) (ctxs : List (ShortTermMemory C P)) : Prop :=
  List.Forall₂ Exchange.answered exchanges ctxs

/-- The contexts that answer two lists of exchanges, one after the other. -/
theorem Answers.exists_append {before after : List (Exchange C P)} {ctxs : List (ShortTermMemory C P)}
    (answers : Answers (before ++ after) ctxs) :
    ∃ ctxs₁ ctxs₂, Answers before ctxs₁ ∧ Answers after ctxs₂ ∧ ctxs = ctxs₁ ++ ctxs₂ := by
  induction before generalizing ctxs with
  | nil => exact ⟨[], ctxs, .nil, answers, rfl⟩
  | cons e before ih =>
    obtain ⟨ctx, rest, answered, later, rfl⟩ := List.forall₂_cons_left_iff.mp answers
    obtain ⟨ctxs₁, ctxs₂, answers₁, answers₂, rfl⟩ := ih later
    exact ⟨ctx :: ctxs₁, ctxs₂, .cons answered answers₁, answers₂, rfl⟩

/-- The run waits for an answer to the exchange. -/
def WaitsFor {α : Type} (e : Exchange C P)
    (result : EStateM.Result Failure (LifeCycle (Script C P) C P) α) : Prop :=
  ∃ failure s ctx, result = .error failure s ∧ s.world.asked = some (e.name, ctx) ∧ e.asked ctx

/-- The method has the conversation described by the exchanges, when the global context it is
run on has the property `Pre`, and then ends with the property `Post`. -/
structure Follows {α : Type} (p : Program (Script C P) C P α) (Pre : ShortTermMemory C P → Prop)
    (exchanges : List (Exchange C P)) (Post : α → ShortTermMemory C P → Prop) : Prop where
  waits : ∀ s before e after ctxs, Pre s.globalContext → exchanges = before ++ e :: after →
    Answers before ctxs → s.world = { replies := ctxs.map Reply.new } → WaitsFor e (p.run s)
  ends : ∀ s ctxs rest, Pre s.globalContext → Answers exchanges ctxs →
    s.world = { replies := ctxs.map Reply.new ++ rest } →
      ∃ a t, p.run s = .ok a t ∧ t.world = { replies := rest } ∧ Post a t.globalContext

section Rules

variable {α β : Type} {p : Program (Script C P) C P α} {f : α → Program (Script C P) C P β}
  {Pre : ShortTermMemory C P → Prop} {Mid : α → ShortTermMemory C P → Prop}
  {Post : β → ShortTermMemory C P → Prop} {before after : List (Exchange C P)}

/-- A method that asks nothing. -/
theorem follows_of_run {Post : α → ShortTermMemory C P → Prop}
    (run : ∀ s, Pre s.globalContext → ∃ a t, p.run s = .ok a t ∧ t.world = s.world ∧
      Post a t.globalContext) : Follows p Pre [] Post where
  waits s before e after ctxs _ split := by
    simp at split
  ends s ctxs rest pre answers script := by
    obtain ⟨a, t, ended, world, post⟩ := run s pre
    cases answers
    exact ⟨a, t, ended, world.trans script, post⟩

theorem follows_pure {a : α} {Post : α → ShortTermMemory C P → Prop}
    (post : ∀ g, Pre g → Post a g) : Follows (pure a) Pre [] Post :=
  follows_of_run fun s pre => ⟨a, s, rfl, rfl, post _ pre⟩

/-- The exchanges of two methods, one after the other. -/
theorem Follows.bind (first : Follows p Pre before Mid)
    (second : ∀ a, Follows (f a) (Mid a) after Post) : Follows (p >>= f) Pre (before ++ after) Post where
  waits s early e late ctxs pre split answers script := by
    -- the question is one of the second method, or one of the first
    have which : (∃ early', early = before ++ early' ∧ after = early' ++ e :: late) ∨
        ∃ late', before = early ++ e :: late' := by
      rcases List.append_eq_append_iff.mp split with ⟨early', same, rest⟩ | ⟨late', same, rest⟩
      · exact Or.inl ⟨early', same, rest⟩
      · cases late' with
        | nil =>
          rw [List.append_nil] at same
          exact Or.inl ⟨[], by rw [same, List.append_nil], rest.symm⟩
        | cons e' late' =>
          obtain ⟨rfl, -⟩ := List.cons.inj rest
          exact Or.inr ⟨late', same⟩
    rcases which with ⟨early', rfl, rest⟩ | ⟨late', same⟩
    · obtain ⟨ctxs₁, ctxs₂, answers₁, answers₂, rfl⟩ := answers.exists_append
      rw [List.map_append] at script
      obtain ⟨a, t, run, world, mid⟩ := first.ends s ctxs₁ _ pre answers₁ script
      obtain ⟨failure, u, ctx, stopped, asked⟩ :=
        (second a).waits t early' e late ctxs₂ mid rest answers₂ world
      refine ⟨failure, u, ctx, ?_, asked⟩
      rw [EStateM.run_bind, run]
      exact stopped
    · obtain ⟨failure, u, ctx, stopped, asked⟩ := first.waits s early e late' ctxs pre same answers script
      refine ⟨failure, u, ctx, ?_, asked⟩
      rw [EStateM.run_bind, stopped]
  ends s ctxs rest pre answers script := by
    obtain ⟨ctxs₁, ctxs₂, answers₁, answers₂, rfl⟩ := answers.exists_append
    rw [List.map_append, List.append_assoc] at script
    obtain ⟨a, t, run, world, mid⟩ := first.ends s ctxs₁ _ pre answers₁ script
    obtain ⟨b, u, run', world', post⟩ := (second a).ends t ctxs₂ rest mid answers₂ world
    refine ⟨b, u, ?_, world', post⟩
    rw [EStateM.run_bind, run]
    exact run'

/-- More may be known before, and less afterwards. -/
theorem Follows.imp {Pre' : ShortTermMemory C P → Prop} {Mid' : α → ShortTermMemory C P → Prop}
    (follows : Follows p Pre before Mid) (pre : ∀ g, Pre' g → Pre g)
    (post : ∀ a g, Mid a g → Mid' a g) : Follows p Pre' before Mid' where
  waits s early e late ctxs known := follows.waits s early e late ctxs (pre _ known)
  ends s ctxs rest known answers script := by
    obtain ⟨a, t, run, world, mid⟩ := follows.ends s ctxs rest (pre _ known) answers script
    exact ⟨a, t, run, world, post a _ mid⟩

/-- What is known of the global context for some value. -/
theorem follows_of_exists {ι : Type} {PreOf : ι → ShortTermMemory C P → Prop}
    (follows : ∀ i, Follows p (PreOf i) before Mid) : Follows p (fun g => ∃ i, PreOf i g) before Mid where
  waits s early e late ctxs := fun ⟨i, pre⟩ => (follows i).waits s early e late ctxs pre
  ends s ctxs rest := fun ⟨i, pre⟩ => (follows i).ends s ctxs rest pre

/-- What is known apart from the global context. -/
theorem follows_of_known {φ : Prop} (follows : φ → Follows p Pre before Mid) :
    Follows p (fun g => φ ∧ Pre g) before Mid where
  waits s early e late ctxs := fun ⟨known, pre⟩ => (follows known).waits s early e late ctxs pre
  ends s ctxs rest := fun ⟨known, pre⟩ => (follows known).ends s ctxs rest pre

/-- A method that reads the state first. -/
theorem follows_get_bind {f : LifeCycle (Script C P) C P → Program (Script C P) C P β}
    (follows : ∀ s, Pre s.globalContext → Follows (f s) Pre after Post) :
    Follows (get >>= f) Pre after Post where
  waits s early e late ctxs pre := (follows s pre).waits s early e late ctxs pre
  ends s ctxs rest pre := (follows s pre).ends s ctxs rest pre

/-- What a life cycle waits for is the next exchange. -/
theorem Follows.conversation_waiting {program : Program (Script C P) C P (ShortTermMemory C P)}
    {exchanges : List (Exchange C P)} {Post : ShortTermMemory C P → ShortTermMemory C P → Prop}
    (follows : Follows program (fun _ => True) exchanges Post) {before after : List (Exchange C P)}
    {e : Exchange C P} (split : exchanges = before ++ e :: after)
    {ctxs : List (ShortTermMemory C P)} (answers : Answers before ctxs) :
    ∃ ctx, conversation program (ctxs.map Reply.new) = .waiting e.name ctx ∧ e.asked ctx := by
  obtain ⟨failure, s, ctx, run, noted, asked⟩ := follows.waits
    { globalContext := {}, world := { replies := ctxs.map Reply.new } } before e after ctxs trivial
    split answers rfl
  refine ⟨ctx, ?_, asked⟩
  simp only [conversation, run, noted]

/-- A life cycle returns when every exchange has an answer. -/
theorem Follows.conversation_returned {program : Program (Script C P) C P (ShortTermMemory C P)}
    {exchanges : List (Exchange C P)} {Post : ShortTermMemory C P → ShortTermMemory C P → Prop}
    (follows : Follows program (fun _ => True) exchanges Post)
    {ctxs : List (ShortTermMemory C P)} (answers : Answers exchanges ctxs) :
    ∃ ctx, conversation program (ctxs.map Reply.new) = .returned ctx := by
  obtain ⟨ctx, t, run, -⟩ := follows.ends
    { globalContext := {}, world := { replies := ctxs.map Reply.new } } ctxs [] trivial answers
    (by rw [List.append_nil])
  refine ⟨ctx, ?_⟩
  simp only [conversation, run]

end Rules

section LifeCycleRules

variable {env : Environment (Script C P) C P} {Pre : ShortTermMemory C P → Prop}

/-- A question to an actor is one exchange. -/
theorem follows_ask (scripted : env.act = Script.act) (e : Exchange C P)
    (asked : ∀ g, Pre g → e.asked g) :
    Follows (ask env e.name) Pre [e] fun context g =>
      ∃ ctx, (context = .fresh ctx ∧ e.answered ctx) ∧ Pre g where
  waits s before e' after ctxs pre split answers script := by
    -- a conversation of one exchange waits at the first answer that is missing
    obtain ⟨rfl, rfl, rfl⟩ : before = [] ∧ e' = e ∧ after = [] := by
      cases before with
      | nil =>
        obtain ⟨same, rest⟩ := List.cons.inj split
        exact ⟨rfl, same.symm, rest.symm⟩
      | cons e' before => simp at split
    cases answers
    have run : ∃ failure t, (ask env e'.name).run s = .error failure t ∧
        t.world.asked = some (e'.name, s.globalContext) := by
      simp only [ask, EStateM.run_bind, EStateM.run_get, scripted, Script.act, script, List.map_nil]
      exact ⟨_, _, rfl, rfl⟩
    obtain ⟨failure, t, stopped, noted⟩ := run
    exact ⟨failure, t, s.globalContext, stopped, noted, asked _ pre⟩
  ends s ctxs rest pre answers script := by
    obtain ⟨ctx, later, known, none, rfl⟩ := List.forall₂_cons_left_iff.mp answers
    cases none
    have run : ∃ t, (ask env e.name).run s = .ok (.fresh ctx) t ∧ t.world = { replies := rest } ∧
        t.globalContext = s.globalContext := by
      simp only [ask, EStateM.run_bind, EStateM.run_get, scripted, Script.act, script, List.map_cons]
      exact ⟨_, rfl, rfl, rfl⟩
    obtain ⟨t, ended, world, same⟩ := run
    exact ⟨.fresh ctx, t, ended, world, ctx, ⟨rfl, known⟩, same.symm ▸ pre⟩

/-- An action that is not a join. -/
def ActionModel.Single : ActionModel → Prop
  | .join _ _ => False
  | _ => True

theorem ActionModel.single_critic (name : String) : (ActionModel.critic name).Single := trivial

theorem ActionModel.single_way2Think (name : String) : (ActionModel.way2Think name).Single := trivial

theorem follows_translate (scripted : env.act = Script.act) {resource : ActionModel}
    (single : resource.Single) {e : Exchange C P} (named : e.name = resource.name)
    (asked : ∀ g, Pre g → e.asked g) :
    Follows (translate env resource) Pre [e] fun translated g =>
      ∃ ctx, (translated = ⟨.fresh ctx, []⟩ ∧ e.answered ctx) ∧ Pre g := by
  have asks : Follows (do return ⟨← ask env e.name, []⟩) Pre [e]
      fun (translated : Translated C P) g =>
        ∃ ctx, (translated = ⟨.fresh ctx, []⟩ ∧ e.answered ctx) ∧ Pre g := by
    refine (follows_ask scripted e asked).bind fun context => follows_pure ?_
    rintro g ⟨ctx, ⟨rfl, known⟩, pre⟩
    exact ⟨ctx, ⟨rfl, known⟩, pre⟩
  cases resource with
  | way2Think name =>
    obtain rfl : e.name = name := named
    exact asks
  | critic name =>
    obtain rfl : e.name = name := named
    exact asks
  | join parameters name => exact single.elim

/-- The loop goes through the resources one by one. -/
theorem follows_mapM_cons {α β : Type} {f : α → Program (Script C P) C P β} {a : α} {as : List α}
    {before after : List (Exchange C P)} {Mid : β → ShortTermMemory C P → Prop}
    {Post : List β → ShortTermMemory C P → Prop} (first : Follows (f a) Pre before Mid)
    (rest : ∀ b, Follows (as.mapM f) (Mid b) after fun bs => Post (b :: bs)) :
    Follows ((a :: as).mapM f) Pre (before ++ after) Post := by
  rw [List.mapM_cons]
  refine first.bind fun b => ?_
  rw [← List.append_nil after]
  exact (rest b).bind fun bs => follows_pure fun g post => post

theorem follows_mapM_nil {α β : Type} {f : α → Program (Script C P) C P β}
    {Post : List β → ShortTermMemory C P → Prop} (post : ∀ g, Pre g → Post [] g) :
    Follows (([] : List α).mapM f) Pre [] Post := by
  rw [List.mapM_nil]
  exact follows_pure post

variable [DecidableEq C] [DecidableEq P]

/-- Merging a context asks nothing. -/
theorem follows_copyGlobalContext (ctx : ShortTermMemory C P)
    (joined : List (List (ShortTermMemory C P))) :
    Follows (copyGlobalContext ctx joined) Pre [] fun _ merged =>
      ∃ g, Pre g ∧ merged = ContextHelper.mergeWithBaseContext g [g, ctx] :=
  follows_of_run fun s pre => ⟨(), _, rfl, rfl, s.globalContext, pre, rfl⟩

/-- What follows a result: a selector request is processed. -/
def followUp (process : SelectorRequest → Program (Script C P) C P (List (ShortTermMemory C P)))
    (resContext : ShortTermMemory C P) :
    Option Resource → Program (Script C P) C P (List (ShortTermMemory C P))
  | some (.selectorRequest sR) => process sR
  | _ => pure [resContext]

/-- One turn of the loop of `processResources`. -/
def processResource (env : Environment (Script C P) C P)
    (process : SelectorRequest → Program (Script C P) C P (List (ShortTermMemory C P)))
    (reflectiveFlag : Bool) (r : ActionModel) :
    Program (Script C P) C P (List (ShortTermMemory C P)) := do
  let translated ← translate env r
  let resContext := translated.context.resolve (← get).globalContext
  copyGlobalContext resContext translated.joined
  followUp process resContext
    (if reflectiveFlag then resContext.lastReflectiveResult else resContext.lastResult)

theorem processResourcesWith_eq (env : Environment (Script C P) C P)
    (process : SelectorRequest → Program (Script C P) C P (List (ShortTermMemory C P)))
    (resources : List ActionModel) (reflectiveFlag : Bool) :
    processResourcesWith env process resources reflectiveFlag =
      (resources.mapM (processResource env process reflectiveFlag) >>= fun contexts =>
        pure contexts.flatten) := rfl

variable {process : SelectorRequest → Program (Script C P) C P (List (ShortTermMemory C P))}

/-- One turn of the loop: the action is asked, its answer is merged, and what follows depends on
the answer. -/
theorem follows_processResource (scripted : env.act = Script.act) {reflectiveFlag : Bool}
    {resource : ActionModel} (single : resource.Single) {e : Exchange C P}
    (named : e.name = resource.name) (asked : ∀ g, Pre g → e.asked g) {more : List (Exchange C P)}
    {Post : List (ShortTermMemory C P) → ShortTermMemory C P → Prop}
    (later : ∀ ctx, e.answered ctx → Follows
      (followUp process ctx (if reflectiveFlag then ctx.lastReflectiveResult else ctx.lastResult))
      (fun merged => ∃ g, Pre g ∧ merged = ContextHelper.mergeWithBaseContext g [g, ctx])
      more Post) :
    Follows (processResource env process reflectiveFlag resource) Pre (e :: more) Post := by
  refine (follows_translate scripted single named asked).bind fun translated => ?_
  refine follows_of_exists fun ctx => follows_of_known fun known => ?_
  obtain ⟨rfl, answered⟩ := known
  refine follows_get_bind fun s _ => ?_
  exact (follows_copyGlobalContext ctx []).bind fun _ => later ctx answered

/-- The loop of `processResources`, when each turn of it keeps what is known of the global
context and yields contexts of a kind. -/
theorem follows_turns {reflectiveFlag : Bool} {Inv Kind : ShortTermMemory C P → Prop}
    {resources : List ActionModel} {turns : List (List (Exchange C P))}
    (each : List.Forall₂ (fun resource exchanges =>
      Follows (processResource env process reflectiveFlag resource) Inv exchanges fun ctxs g =>
        Inv g ∧ ∀ ctx ∈ ctxs, Kind ctx) resources turns) :
    Follows (resources.mapM (processResource env process reflectiveFlag)) Inv turns.flatten
      fun lists g => Inv g ∧ ∀ ctx ∈ lists.flatten, Kind ctx := by
  induction each with
  | nil => exact follows_mapM_nil fun g inv => ⟨inv, List.forall_mem_nil _⟩
  | cons turn _ ih =>
    rw [List.flatten_cons]
    refine follows_mapM_cons turn fun ctxs => ?_
    refine Follows.imp (follows_of_known fun kind => ih.imp (fun g inv => inv)
      fun lists g known => ?_) (fun g known => And.intro known.2 known.1) fun lists g => id
    rw [List.flatten_cons]
    refine ⟨known.1, fun ctx member => ?_⟩
    rcases List.mem_append.mp member with first | later
    · exact kind ctx first
    · exact known.2 ctx later

/-- `processResources` returns what the turns of its loop yield. -/
theorem follows_processResourcesWith {reflectiveFlag : Bool} {Pre : ShortTermMemory C P → Prop}
    {Post : List (ShortTermMemory C P) → ShortTermMemory C P → Prop}
    {resources : List ActionModel} {exchanges : List (Exchange C P)}
    (loop : Follows (resources.mapM (processResource env process reflectiveFlag)) Pre exchanges
      fun lists g => Post lists.flatten g) :
    Follows (processResourcesWith env process resources reflectiveFlag) Pre exchanges Post := by
  rw [processResourcesWith_eq, ← List.append_nil exchanges]
  exact loop.bind fun lists => follows_pure fun g known => known

end LifeCycleRules

end ThinkingUnderstanding
