import ThinkingUnderstanding.Context.Knowledge
import ThinkingUnderstanding.LifeCycle.ThinkingLifeCycle

/-!
# The record of a run

Every change of the global context goes through an assignment of an action or through
`copyGlobalContext`. The record of a run lists these changes, linked one to the next, and
says of each what it did. A statement about all the contexts of a run is then a
statement about one recorded change.

A join merges the contexts its actions return before they reach `copyGlobalContext`.
With two actions or more the merge keeps what they accumulated and drops their reports;
with one action there is no merge.

## Main definitions

* `CopyStep.Valid`, `Event.Valid` — what a recorded change did
* `Recorded` — the record of one state extends that of another by valid, linked events

## Main results

* `ensures_translate` — how the contexts inside a translated resource relate to its result
* `respects_runGoals` — what actors and merges respect, every run respects
* `recorded_runGoals` — every run is recorded
-/

namespace ThinkingUnderstanding

open Semantics

variable {σ C P : Type}

/-- The assignments of an action to its context lose no knowledge. -/
theorem Reply.knowledge_le_edit (reply : Reply C P) (ctx : ShortTermMemory C P) :
    ctx.knowledge ≤ (reply.edit ctx).knowledge := by
  have filed : ctx.knowledge ≤ ({ ctx with
      frames := reply.filed.foldl (fun acc entry => acc.insert entry.1 entry.2) ctx.frames } :
      ShortTermMemory C P).knowledge := by
    refine ⟨?_, le_rfl⟩
    refine ShortTermMemory.accumulated_le_iff.mpr
      ⟨fun uri member => ?_, fun _ member => member, fun _ member => member⟩
    exact Math.InsertionMap.mem_keys_foldl_insert.mpr (Or.inl member)
  unfold Reply.edit
  split_ifs
  · exact filed.trans (ShortTermMemory.knowledge_le_setLastResult _ _)
  · exact filed

/-- A returned context only gains when the context it may stand for gains. -/
theorem ReturnedContext.knowledge_resolve_mono {g g' : ShortTermMemory C P}
    (grown : g.knowledge ≤ g'.knowledge) (context : ReturnedContext C P) :
    (context.resolve g).knowledge ≤ (context.resolve g').knowledge := by
  cases context with
  | given => exact grown
  | fresh ctx => exact le_rfl

namespace ThinkingLifeCycle

/-- How the contexts merged by the joins inside a resource relate to the translated one,
when the given context has the value `g`. -/
structure Translated.Sound (g : ShortTermMemory C P) (t : Translated C P) : Prop where
  accumulated : ∀ parts ∈ t.joined, ∀ part ∈ parts,
    part.accumulated ≤ (t.context.resolve g).accumulated
  reports : ∀ parts ∈ t.joined, ∀ part ∈ parts,
    part.reports ≤ (t.context.resolve g).reports ∨
      ∃ parts' ∈ t.joined, 2 ≤ parts'.length ∧ ∃ part' ∈ parts', part.reports ≤ part'.reports
  forgets : ∀ parts ∈ t.joined, 2 ≤ parts.length →
    ∃ ctx, t.context = .fresh ctx ∧ ctx.reports = ⊥

theorem Translated.Sound.mono {g g' : ShortTermMemory C P} {t : Translated C P}
    (sound : t.Sound g) (grown : g.knowledge ≤ g'.knowledge) : t.Sound g' where
  accumulated parts member part inside :=
    (sound.accumulated parts member part inside).trans
      (ReturnedContext.knowledge_resolve_mono grown t.context).1
  reports parts member part inside := by
    rcases sound.reports parts member part inside with kept | other
    · exact Or.inl (kept.trans (ReturnedContext.knowledge_resolve_mono grown t.context).2)
    · exact Or.inr other
  forgets := sound.forgets

theorem Translated.sound_of_not_join (g : ShortTermMemory C P) (context : ReturnedContext C P) :
    (⟨context, []⟩ : Translated C P).Sound g where
  accumulated _ member := nomatch member
  reports _ member := nomatch member
  forgets _ member := nomatch member

/-- A join of sound results is sound. -/
theorem Translated.sound_join {g : ShortTermMemory C P} {results : List (Translated C P)}
    (sound : ∀ t ∈ results, t.Sound g) :
    (⟨mergeReturned g (results.map Translated.context),
      (results.map Translated.context).map (ReturnedContext.resolve g) ::
        results.flatMap Translated.joined⟩ : Translated C P).Sound g := by
  match results, sound with
  | [t], sound =>
    -- a single result is passed on as the object it is
    have single := sound t List.mem_cons_self
    have joined : [t].flatMap Translated.joined = t.joined := List.append_nil _
    constructor
    case accumulated =>
      intro parts member part inside
      rcases List.mem_cons.mp member with rfl | deeper
      · rw [List.mem_singleton.mp inside]
        exact le_rfl
      · exact single.accumulated parts (joined ▸ deeper) part inside
    case reports =>
      intro parts member part inside
      rcases List.mem_cons.mp member with rfl | deeper
      · rw [List.mem_singleton.mp inside]
        exact Or.inl le_rfl
      · rcases single.reports parts (joined ▸ deeper) part inside with kept | ⟨parts', h, more⟩
        · exact Or.inl kept
        · exact Or.inr ⟨parts', List.mem_cons_of_mem _ (joined.symm ▸ h), more⟩
    case forgets =>
      intro parts member several
      rcases List.mem_cons.mp member with rfl | deeper
      · exact absurd several (by simp)
      · exact single.forgets parts (joined ▸ deeper) several
  | [], _ =>
    constructor
    case accumulated =>
      intro parts member part inside
      rw [List.mem_singleton.mp member] at inside
      cases inside
    case reports =>
      intro parts member part inside
      rw [List.mem_singleton.mp member] at inside
      cases inside
    case forgets =>
      intro parts member several
      rw [List.mem_singleton.mp member] at several
      exact absurd several (by simp)
  | t₁ :: t₂ :: rest, sound =>
    -- several results are merged, and each of them is a part of the outer join
    let outer := ((t₁ :: t₂ :: rest).map Translated.context).map (ReturnedContext.resolve g)
    have several : 2 ≤ outer.length := by simp [outer]
    have part_of_outer : ∀ t ∈ t₁ :: t₂ :: rest, t.context.resolve g ∈ outer :=
      fun t member => List.mem_map_of_mem (List.mem_map_of_mem member)
    constructor
    case accumulated =>
      intro parts member part inside
      rcases List.mem_cons.mp member with rfl | deeper
      · exact ContextHelper.accumulated_le_mergeAll inside
      · obtain ⟨t, present, found⟩ := List.mem_flatMap.mp deeper
        exact ((sound t present).accumulated parts found part inside).trans
          (ContextHelper.accumulated_le_mergeAll (part_of_outer t present))
    case reports =>
      intro parts member part inside
      refine Or.inr ?_
      rcases List.mem_cons.mp member with rfl | deeper
      · exact ⟨outer, List.mem_cons_self, several, part, inside, le_rfl⟩
      · obtain ⟨t, present, found⟩ := List.mem_flatMap.mp deeper
        rcases (sound t present).reports parts found part inside with kept | ⟨parts', h, more⟩
        · exact ⟨outer, List.mem_cons_self, several, _, part_of_outer t present, kept⟩
        · exact ⟨parts', List.mem_cons_of_mem _ (List.mem_flatMap.mpr ⟨t, present, h⟩), more⟩
    case forgets =>
      intro _ _ _
      exact ⟨_, rfl, ContextHelper.reports_mergeAll several⟩

end ThinkingLifeCycle

/-- What `copyGlobalContext` did: the merge onto the base, of a context that stands for
the contexts behind it as far as a join keeps them. -/
structure CopyStep.Valid [DecidableEq C] [DecidableEq P] (step : CopyStep C P) : Prop where
  result : step.result =
    ContextHelper.mergeWithBaseContext step.base [step.base, step.returned]
  accumulated : ∀ parts ∈ step.joined, ∀ part ∈ parts,
    part.accumulated ≤ step.returned.accumulated
  reports : ∀ parts ∈ step.joined, ∀ part ∈ parts,
    part.reports ≤ step.returned.reports ∨
      ∃ parts' ∈ step.joined, 2 ≤ parts'.length ∧
        ∃ part' ∈ parts', part.reports ≤ part'.reports
  forgets : ∀ parts ∈ step.joined, 2 ≤ parts.length → step.returned.reports = ⊥

/-- What a recorded change of the global context did. -/
def Event.Valid [DecidableEq C] [DecidableEq P] : Event C P → Prop
  | .edited before after => ∃ reply : Reply C P, after = reply.edit before
  | .copied step => step.Valid

/-- The second state has been reached from the first by recorded changes. -/
def Recorded [DecidableEq C] [DecidableEq P] (s t : LifeCycle σ C P) : Prop :=
  ∃ events, t.record = s.record ++ events ∧
    Linked Event.before Event.after s.globalContext events t.globalContext ∧
    ∀ event ∈ events, event.Valid

section Recorded

variable [DecidableEq C] [DecidableEq P]

theorem Recorded.refl (s : LifeCycle σ C P) : Recorded s s :=
  ⟨[], (List.append_nil _).symm, rfl, fun _ member => nomatch member⟩

theorem Recorded.trans {s t u : LifeCycle σ C P} (first : Recorded s t) (second : Recorded t u) :
    Recorded s u := by
  obtain ⟨events, record, linked, valid⟩ := first
  obtain ⟨events', record', linked', valid'⟩ := second
  refine ⟨events ++ events', ?_, linked.append linked', fun event member => ?_⟩
  · rw [record', record, List.append_assoc]
  · rcases List.mem_append.mp member with early | late
    · exact valid event early
    · exact valid' event late

instance : IsPreorder (LifeCycle σ C P) Recorded where
  refl := Recorded.refl
  trans _ _ _ := Recorded.trans

theorem Event.Valid.knowledge_le {event : Event C P} (valid : event.Valid) :
    event.before.knowledge ≤ event.after.knowledge := by
  cases event with
  | edited before after =>
    obtain ⟨reply, rfl⟩ := valid
    exact reply.knowledge_le_edit before
  | copied step =>
    change step.base.knowledge ≤ step.result.knowledge
    rw [valid.result]
    exact ContextHelper.knowledge_le_mergeWithBaseContext _ _ List.mem_cons_self

/-- The global context gains in every recorded change. -/
theorem Recorded.knowledge_le {s t : LifeCycle σ C P} (recorded : Recorded s t) :
    s.globalContext.knowledge ≤ t.globalContext.knowledge := by
  obtain ⟨events, -, linked, valid⟩ := recorded
  exact (linked.ascending fun event member => (valid event member).knowledge_le).1

end Recorded

namespace ThinkingLifeCycle

section

variable (env : Environment σ C P) {R : LifeCycle σ C P → LifeCycle σ C P → Prop}
  [IsPreorder (LifeCycle σ C P) R]

mutual

theorem respects_translate (asked : ∀ name, Respects R (ask env name)) :
    ∀ resource, Respects R (translate env resource)
  | .way2Think name => (asked name).bind fun _ => respects_pure _
  | .critic name => (asked name).bind fun _ => respects_pure _
  | .join parameters _ =>
      (respects_translateAll asked parameters).bind fun _ =>
        respects_get.bind fun _ => respects_pure _

theorem respects_translateAll (asked : ∀ name, Respects R (ask env name)) :
    ∀ resources, Respects R (translateAll env resources)
  | [] => respects_pure _
  | resource :: rest =>
      (respects_translate asked resource).bind fun _ =>
        (respects_translateAll asked rest).bind fun _ => respects_pure _

end

end

section

variable (env : Environment σ C P)

/-- The global context of the first state has no more knowledge than that of the second. -/
def Gains (s t : LifeCycle σ C P) : Prop := s.globalContext.knowledge ≤ t.globalContext.knowledge

instance : IsPreorder (LifeCycle σ C P) Gains where
  refl _ := le_refl _
  trans _ _ _ := le_trans

theorem gains_ask (name : String) : Respects Gains (ask env name) := by
  intro s
  rcases answered : env.act name s.globalContext s.world with ⟨reply, world⟩
  simp only [ask, EStateM.run_bind, EStateM.run_get, EStateM.run_set, answered]
  cases reply.answer with
  | ok context => exact reply.knowledge_le_edit s.globalContext
  | error message => exact reply.knowledge_le_edit s.globalContext

mutual

/-- The contexts behind a translated resource relate to its result as joins allow. -/
theorem ensures_translate : ∀ resource,
    Ensures (translate env resource) fun _ result t => result.Sound t.globalContext
  | .way2Think name => by
      intro s result t run
      obtain ⟨context, _, _, last⟩ := run_bind_eq_ok_iff.mp run
      cases last
      exact Translated.sound_of_not_join _ context
  | .critic name => by
      intro s result t run
      obtain ⟨context, _, _, last⟩ := run_bind_eq_ok_iff.mp run
      cases last
      exact Translated.sound_of_not_join _ context
  | .join parameters _ => by
      intro s result t run
      obtain ⟨results, m, all, rest⟩ := run_bind_eq_ok_iff.mp run
      cases rest
      exact Translated.sound_join (ensures_translateAll parameters s results _ all)

theorem ensures_translateAll : ∀ resources,
    Ensures (translateAll env resources) fun _ results t =>
      ∀ result ∈ results, result.Sound t.globalContext
  | [] => by
      intro s results t run
      cases run
      exact fun _ member => nomatch member
  | resource :: rest => by
      intro s results t run
      obtain ⟨first, m, head, later⟩ := run_bind_eq_ok_iff.mp run
      obtain ⟨others, m', tail, last⟩ := run_bind_eq_ok_iff.mp later
      cases last
      have grown := respects_translateAll env (gains_ask env) rest m
      rw [tail] at grown
      intro result member
      rcases List.mem_cons.mp member with rfl | later
      · exact (ensures_translate resource s _ m head).mono grown
      · exact ensures_translateAll rest m others _ tail result later

end

end

section

variable [DecidableEq C] [DecidableEq P] (env : Environment σ C P)

theorem recorded_ask (name : String) : Respects Recorded (ask env name) := by
  intro s
  rcases answered : env.act name s.globalContext s.world with ⟨reply, world⟩
  refine ⟨[Event.edited s.globalContext (reply.edit s.globalContext)], ?_⟩
  have valid : ∀ event ∈ [Event.edited s.globalContext (reply.edit s.globalContext)],
      event.Valid := by
    intro event member
    rw [List.mem_singleton.mp member]
    exact ⟨reply, rfl⟩
  simp only [ask, EStateM.run_bind, EStateM.run_get, EStateM.run_set, answered]
  cases reply.answer with
  | ok context => exact ⟨rfl, ⟨rfl, rfl⟩, valid⟩
  | error message => exact ⟨rfl, ⟨rfl, rfl⟩, valid⟩

omit env in
/-- Merging a context into the global context is recorded, when the contexts behind it
relate to it as joins allow. -/
theorem recorded_copyGlobalContext (s : LifeCycle σ C P) (t : Translated C P)
    (sound : t.Sound s.globalContext) :
    Recorded s (finalState
      ((copyGlobalContext (t.context.resolve s.globalContext) t.joined).run s)) := by
  refine ⟨_, rfl, ⟨rfl, rfl⟩, fun event member => ?_⟩
  rw [List.mem_singleton.mp member]
  exact ⟨rfl, sound.accumulated, sound.reports, fun parts present several => by
    obtain ⟨ctx, fresh, empty⟩ := sound.forgets parts present several
    simp only [fresh]
    exact empty⟩

end

/-! ### Runs

A preorder that actors respect, and merges into the global context, is respected by runs. -/

section Runs

variable [DecidableEq C] [DecidableEq P] (env : Environment σ C P)
  {R : LifeCycle σ C P → LifeCycle σ C P → Prop} [IsPreorder (LifeCycle σ C P) R]
  (asked : ∀ name, Respects R (ask env name))
  (copied : ∀ s (t : Translated C P), t.Sound s.globalContext →
    R s (finalState ((copyGlobalContext (t.context.resolve s.globalContext) t.joined).run s)))

omit [IsPreorder (LifeCycle σ C P) R] in
include copied in
theorem respects_mergeContexts (contexts : List (ShortTermMemory C P)) :
    Respects R (mergeContexts (σ := σ) contexts) := fun s =>
  copied s ⟨.fresh (ContextHelper.mergeLast contexts), []⟩ (Translated.sound_of_not_join _ _)

include asked copied in
theorem respects_processResourcesWith
    {process : SelectorRequest → Program σ C P (List (ShortTermMemory C P))}
    (processed : ∀ request, Respects R (process request))
    (resources : List ActionModel) (reflectiveFlag : Bool) :
    Respects R (processResourcesWith env process resources reflectiveFlag) := by
  refine Respects.bind (Respects.mapM resources fun resource _ => ?_) fun _ => respects_pure _
  refine (respects_translate env asked resource).bind_of_ensures (ensures_translate env resource) ?_
  intro _ translated m sound
  refine IsTrans.trans _ _ _ (copied m translated sound) ?_
  -- what follows the merge is known once the merge has run
  have merged : (copyGlobalContext (translated.context.resolve m.globalContext)
    translated.joined).run m = .ok () _ := rfl
  simp only [EStateM.run_bind, EStateM.run_get, merged]
  generalize (if reflectiveFlag then _ else _ : Option Resource) = result
  split
  · exact processed _ _
  · exact respects_pure _ _

include asked copied in
theorem respects_processSelectorRequest :
    ∀ depth request, Respects R (processSelectorRequest env depth request)
  | 0, _ => respects_throw _
  | depth + 1, _ =>
      respects_processResourcesWith env asked copied (respects_processSelectorRequest depth) _ true

include asked copied in
theorem respects_runGoal (depth : ℕ) (goal : Goal) : Respects R (runGoal env depth goal) := by
  unfold runGoal
  have process := respects_processResourcesWith env asked copied
    (respects_processSelectorRequest env asked copied depth)
  cases env.getByGoalName goal.name with
  | none => exact respects_throw _
  | some resources =>
    refine (process resources false).bind fun contexts => ?_
    refine (respects_mergeContexts copied contexts).bind fun _ => ?_
    refine Respects.bind ?_ fun refContexts => respects_mergeContexts copied refContexts
    refine respects_get.bind fun s => ?_
    cases env.getReflectiveCritics s.world with
    | ok critics => exact process critics true
    | error message => exact respects_throw _

include asked copied in
theorem respects_runGoalsLoop (depth : ℕ) :
    ∀ rounds manager, Respects R (runGoalsLoop env depth rounds manager)
  | 0, manager => by
      unfold runGoalsLoop
      split_ifs
      · exact respects_throw _
      · exact respects_pure _
  | rounds + 1, manager => by
      unfold runGoalsLoop
      cases manager.currentGoal with
      | none => exact respects_pure _
      | some goal =>
        refine (respects_runGoal env asked copied depth goal).bind fun _ =>
          respects_get.bind fun s => ?_
        obtain ⟨returned, moved⟩ := manager.nextGoal s.globalContext
        cases returned with
        | ok next => exact respects_runGoalsLoop depth rounds moved
        | error e => exact respects_throw _

include asked copied in
/-- What actors and merges respect, every run of `runGoals` respects. -/
theorem respects_runGoals (depth rounds : ℕ) (targetGoals : List Goal) :
    Respects R (runGoals env depth rounds targetGoals) :=
  respects_runGoalsLoop env asked copied depth rounds _

end Runs

/-- Every run of `runGoals` is recorded. -/
theorem recorded_runGoals [DecidableEq C] [DecidableEq P] (env : Environment σ C P)
    (depth rounds : ℕ) (targetGoals : List Goal) :
    Respects Recorded (runGoals env depth rounds targetGoals) :=
  respects_runGoals env (recorded_ask env) recorded_copyGlobalContext depth rounds targetGoals

end ThinkingLifeCycle

end ThinkingUnderstanding
