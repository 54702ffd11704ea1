import ThinkingUnderstanding.LifeCycle.MostProbableAction
import ThinkingUnderstanding.Math.Arena

/-!
# No request is filed twice

A context keeps two lists of selector requests, the classification results and those of them
that have been checked. The setter of the last result adds to the first list, the
merges unite both, and `FindMostProbableAction` sorts and splits them.

Contexts are objects that are assigned to. A merge of a single context returns that
context, and what `mergeLast` and the others assign is assigned to it. The operations
therefore run on a store of contexts, from which they take their arguments in any order and
number.

## Main definitions

* `ShortTermMemory.Unrepeated` — neither list has a repeated element
* `ContextOperation`, `ContextOperation.perform` — an operation on the store
* `NoneRepeated` — no context in the store has a repeated request

## Main results

* `NoneRepeated.perform` — what one operation preserves
* `noneRepeated_performAll` — what any sequence of operations preserves
-/

namespace ThinkingUnderstanding

open Math

variable {C P : Type}

/-- The lists of selector requests of a context have no repeated element. -/
structure ShortTermMemory.Unrepeated (ctx : ShortTermMemory C P) : Prop where
  results : ctx.classificationResults.Nodup
  checked : ctx.checkedClassificationResults.Nodup

open ShortTermMemory

namespace ContextHelper

theorem nodup_mergeList {x y : List SelectorRequest} (first : x.Nodup) (second : y.Nodup) :
    (mergeList x y).Nodup := by
  apply (first.filter _).append second
  intro request kept inside
  exact of_decide_eq_true (List.mem_filter.mp kept).2 inside

end ContextHelper

/-! ### The combinators -/

namespace ShortTermMemory.Unrepeated

variable {ctx first second : ShortTermMemory C P} {contexts : List (ShortTermMemory C P)}

theorem ofResources (resources : List Resource) :
    (ContextHelper.ofResources resources : ShortTermMemory C P).Unrepeated :=
  ⟨List.nodup_nil, List.nodup_nil⟩

/-- A request that is there already is not added. -/
theorem setLastResult (unrepeated : ctx.Unrepeated) (result : Option Resource) :
    (ctx.setLastResult result).Unrepeated := by
  refine ⟨?_, ?_⟩
  · unfold ShortTermMemory.setLastResult
    split
    · split_ifs with seen
      · exact unrepeated.results
      · exact List.nodup_cons.mpr ⟨seen, unrepeated.results⟩
    · exact unrepeated.results
    · exact unrepeated.results
  · rw [checkedClassificationResults_setLastResult]
    exact unrepeated.checked

theorem merge (left : first.Unrepeated) (right : second.Unrepeated) :
    (ContextHelper.merge first second).Unrepeated where
  results := ContextHelper.nodup_mergeList left.results right.results
  checked := ContextHelper.nodup_mergeList left.checked right.checked

theorem mergeAll (all : ∀ ctx ∈ contexts, ctx.Unrepeated) :
    (ContextHelper.mergeAll contexts).Unrepeated := by
  cases contexts with
  | nil => exact ofResources []
  | cons first rest =>
    rw [List.forall_mem_cons] at all
    obtain ⟨merged, all⟩ := all
    rw [ContextHelper.mergeAll]
    -- on the contexts that are still to be merged
    induction rest generalizing first with
    | nil => exact merged
    | cons second rest ih =>
      rw [List.forall_mem_cons] at all
      rw [List.foldl_cons]
      exact ih _ (merged.merge all.1) all.2

theorem mergeLast (all : ∀ ctx ∈ contexts, ctx.Unrepeated) :
    (ContextHelper.mergeLast contexts).Unrepeated := by
  unfold ContextHelper.mergeLast
  split
  · have merged := (Unrepeated.mergeAll all).setLastResult
    exact ⟨(merged _).results, (merged _).checked⟩
  · exact ofResources []

theorem mergeFirstAndLastResult (all : ∀ ctx ∈ contexts, ctx.Unrepeated) :
    (ContextHelper.mergeFirstAndLastResult contexts).Unrepeated := by
  unfold ContextHelper.mergeFirstAndLastResult
  split
  · rename_i last _ _
    have merged := Unrepeated.mergeAll all
    have assigned : (if last.lastResult.isSome then
        (ContextHelper.mergeAll contexts).setLastResult last.lastResult
      else ContextHelper.mergeAll contexts).Unrepeated := by
      split
      · exact merged.setLastResult _
      · exact merged
    exact ⟨assigned.results, assigned.checked⟩
  · exact ofResources []

theorem mergeWithBaseContext [DecidableEq C] [DecidableEq P] {base : ShortTermMemory C P}
    (all : ∀ ctx ∈ base :: contexts, ctx.Unrepeated) :
    (ContextHelper.mergeWithBaseContext base contexts).Unrepeated := by
  have merged := (Unrepeated.mergeAll all).setLastResult
  exact ⟨(merged _).results, (merged _).checked⟩

/-- The candidates are sorted, the first one is taken out, and it is the only one that is
checked. -/
theorem findMostProbableAction (unrepeated : ctx.Unrepeated) {outputContext : ShortTermMemory C P}
    (returned : FindMostProbableAction.apply ctx = some outputContext) :
    outputContext.Unrepeated := by
  by_cases none_given : ctx.classificationResults = []
  · rw [FindMostProbableAction.apply_of_nil none_given] at returned
    cases returned
    exact ofResources []
  · have nodup : (FindMostProbableAction.candidates ctx).Nodup :=
      (List.mergeSort_perm _ _).nodup_iff.mpr (unrepeated.results.filter _)
    cases sorted : FindMostProbableAction.candidates ctx with
    | nil =>
      rw [FindMostProbableAction.apply_of_no_candidates none_given sorted] at returned
      exact nomatch returned
    | cons best rest =>
      rw [FindMostProbableAction.apply_of_candidates sorted] at returned
      cases returned
      rw [sorted] at nodup
      exact ⟨nodup.of_cons, List.nodup_singleton best⟩

end ShortTermMemory.Unrepeated

/-! ### Operations on a store of contexts -/

instance : Inhabited (ShortTermMemory C P) := ⟨{}⟩

/-- The identity of a `ShortTermMemory` object. -/
abbrev ContextRef := ℕ

/-- An operation on contexts, which are named by their identities. -/
inductive ContextOperation
  | setLastResult (ctx : ContextRef) (result : Option Resource)
  | merge (first second : ContextRef)
  | mergeAll (contexts : List ContextRef)
  | mergeLast (contexts : List ContextRef)
  | mergeFirstAndLastResult (contexts : List ContextRef)
  | mergeWithBaseContext (baseContext : ContextRef) (supplementalContexts : List ContextRef)
  | findMostProbableAction (inputContext : ContextRef)

/-- The context that contexts are merged into: a single one is its own merge and is assigned
to, and of several a new one is made. -/
def mergedInto (store : Arena (ShortTermMemory C P)) (contexts : List ContextRef)
    (merged : List (ShortTermMemory C P) → ShortTermMemory C P) : Arena (ShortTermMemory C P) :=
  match contexts with
  | [ctx] => store.modify ctx fun c => merged [c]
  | contexts => store.alloc (merged (contexts.map store.get))

/-- The store after an operation. An exception leaves it as it is. -/
def ContextOperation.perform [DecidableEq C] [DecidableEq P]
    (store : Arena (ShortTermMemory C P)) : ContextOperation → Arena (ShortTermMemory C P)
  | setLastResult ctx result => store.modify ctx (·.setLastResult result)
  | merge first second => store.alloc (ContextHelper.merge (store.get first) (store.get second))
  | mergeAll contexts => mergedInto store contexts ContextHelper.mergeAll
  | mergeLast contexts => mergedInto store contexts ContextHelper.mergeLast
  | mergeFirstAndLastResult contexts =>
      mergedInto store contexts ContextHelper.mergeFirstAndLastResult
  | mergeWithBaseContext baseContext supplementalContexts =>
      match supplementalContexts with
      | [] => store.modify baseContext fun base => ContextHelper.mergeWithBaseContext base []
      | supplementalContexts => store.alloc (ContextHelper.mergeWithBaseContext
          (store.get baseContext) (supplementalContexts.map store.get))
  | findMostProbableAction inputContext =>
      match FindMostProbableAction.apply (store.get inputContext) with
      | some outputContext => store.alloc outputContext
      | none => store

/-- The store after operations, one after another. -/
def ContextOperation.performAll [DecidableEq C] [DecidableEq P]
    (store : Arena (ShortTermMemory C P)) (operations : List ContextOperation) :
    Arena (ShortTermMemory C P) :=
  operations.foldl perform store

/-- No context has a repeated request. -/
def NoneRepeated (store : Arena (ShortTermMemory C P)) : Prop :=
  ∀ ctx, (store.get ctx).Unrepeated

namespace NoneRepeated

variable {store : Arena (ShortTermMemory C P)} {ctx : ContextRef} {contexts : List ContextRef}

theorem modify (unrepeated : NoneRepeated store)
    {f : ShortTermMemory C P → ShortTermMemory C P} (keeps : (f (store.get ctx)).Unrepeated) :
    NoneRepeated (store.modify ctx f) := by
  intro c
  rw [Arena.get_modify]
  split
  · exact keeps
  · exact unrepeated c

theorem alloc (unrepeated : NoneRepeated store) {object : ShortTermMemory C P}
    (new : object.Unrepeated) : NoneRepeated (store.alloc object) := unrepeated.modify new

/-- The contexts that an operation is given. -/
theorem arguments (unrepeated : NoneRepeated store) (contexts : List ContextRef) :
    ∀ ctx ∈ contexts.map store.get, ctx.Unrepeated :=
  List.forall_mem_map.mpr fun c _ => unrepeated c

theorem mergedInto (unrepeated : NoneRepeated store)
    {merged : List (ShortTermMemory C P) → ShortTermMemory C P}
    (keeps : ∀ contexts, (∀ ctx ∈ contexts, ctx.Unrepeated) → (merged contexts).Unrepeated) :
    NoneRepeated (mergedInto store contexts merged) := by
  have kept := keeps _ (unrepeated.arguments contexts)
  unfold ThinkingUnderstanding.mergedInto
  split
  · exact unrepeated.modify kept
  · exact unrepeated.alloc kept

variable [DecidableEq C] [DecidableEq P]

/-- An operation leaves no context with a repeated request. -/
theorem perform (unrepeated : NoneRepeated store) (operation : ContextOperation) :
    NoneRepeated (operation.perform store) := by
  cases operation with
  | setLastResult ctx result =>
    rw [ContextOperation.perform]
    exact unrepeated.modify (Unrepeated.setLastResult (unrepeated ctx) result)
  | merge first second =>
    exact unrepeated.alloc (Unrepeated.merge (unrepeated first) (unrepeated second))
  | mergeAll contexts => exact unrepeated.mergedInto fun _ => Unrepeated.mergeAll
  | mergeLast contexts => exact unrepeated.mergedInto fun _ => Unrepeated.mergeLast
  | mergeFirstAndLastResult contexts =>
    exact unrepeated.mergedInto fun _ => Unrepeated.mergeFirstAndLastResult
  | mergeWithBaseContext base supplemental =>
    have merged := Unrepeated.mergeWithBaseContext (unrepeated.arguments (base :: supplemental))
    -- without supplemental contexts the base is written to, otherwise a context is made
    cases supplemental with
    | nil =>
      rw [ContextOperation.perform]
      exact unrepeated.modify merged
    | cons first rest => exact unrepeated.alloc merged
  | findMostProbableAction inputContext =>
    rw [ContextOperation.perform]
    split
    · rename_i outputContext returned
      exact unrepeated.alloc (Unrepeated.findMostProbableAction (unrepeated inputContext) returned)
    · exact unrepeated

end NoneRepeated

/-- However contexts without repeated requests are merged, assigned and chosen from, none of
them comes to have a repeated one. -/
theorem noneRepeated_performAll [DecidableEq C] [DecidableEq P]
    (store : Arena (ShortTermMemory C P)) (start : NoneRepeated store)
    (operations : List ContextOperation) :
    NoneRepeated (ContextOperation.performAll store operations) := by
  induction operations generalizing store with
  | nil => exact start
  | cons operation rest ih => exact ih _ (start.perform operation)

/-- A request is assigned twice to a new context, which is merged with itself and searched. -/
theorem noneRepeated_of_assigned_twice :
    NoneRepeated (ContextOperation.performAll
      (.empty : Arena (ShortTermMemory ConceptRef PhraseRef))
      [.setLastResult 0 (some (.selectorRequest ⟨[7], 1, { frequency := 9 / 10 }⟩)),
        .setLastResult 0 (some (.selectorRequest ⟨[7], 1, { frequency := 9 / 10 }⟩)),
        .mergeWithBaseContext 0 [0], .findMostProbableAction 1]) :=
  noneRepeated_performAll _ (fun _ => ⟨List.nodup_nil, List.nodup_nil⟩) _

end ThinkingUnderstanding
