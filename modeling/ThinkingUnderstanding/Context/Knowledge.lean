import Mathlib.Order.Bounds.Basic
import Mathlib.Data.Set.Basic
import ThinkingUnderstanding.Context.ShortTermMemory

/-!
# What a context knows

The combinators on contexts rebuild a context field by field. Seen as sets, the fields
that collect something fall into two groups. The accumulated ones (frame keys,
classification results, checked classification results) are united by every merge. The
reports (what was not understood, and the keys of what is to be reported) are united by
`mergeWithBaseContext` only: a merge of two contexts leaves none.

Each group is an element of a product of power sets, so "nothing is lost" is `≤`.

## Main definitions

* `ShortTermMemory.accumulated`, `ShortTermMemory.reports`, `ShortTermMemory.knowledge`

## Main results

* `accumulated_le_mergeAll`, `reports_mergeAll` — what a merge of contexts keeps and loses
* `isLUB_reports_mergeWithBaseContext` — the reports of a merge onto a base are exactly
  those of the contexts merged
* `knowledge_le_mergeWithBaseContext` — merging onto a base loses no knowledge
-/

namespace ThinkingUnderstanding

open Math

variable {C P : Type}

namespace ShortTermMemory

/-- The frame keys, the classification results and the checked classification results. -/
def accumulated (ctx : ShortTermMemory C P) :
    Set UriRef × Set SelectorRequest × Set SelectorRequest :=
  ({uri | uri ∈ ctx.frames.keys}, {request | request ∈ ctx.classificationResults},
    {request | request ∈ ctx.checkedClassificationResults})

/-- The phrases and concepts not understood, and the keys of the two lines to report. -/
def reports (ctx : ShortTermMemory C P) : Set P × Set C × Set UriRef × Set UriRef :=
  ({phrase | phrase ∈ ctx.notUnderstoodPhrases}, {concept | concept ∈ ctx.notUnderstoodConcepts},
    {uri | uri ∈ ctx.resultToReport.keys}, {uri | uri ∈ ctx.solutionsToReport.keys})

/-- Everything a context collects. -/
def knowledge (ctx : ShortTermMemory C P) :
    (Set UriRef × Set SelectorRequest × Set SelectorRequest) ×
      (Set P × Set C × Set UriRef × Set UriRef) :=
  (ctx.accumulated, ctx.reports)

theorem accumulated_le_iff {ctx ctx' : ShortTermMemory C P} :
    ctx.accumulated ≤ ctx'.accumulated ↔
      (∀ uri ∈ ctx.frames.keys, uri ∈ ctx'.frames.keys) ∧
      (∀ request ∈ ctx.classificationResults, request ∈ ctx'.classificationResults) ∧
      (∀ request ∈ ctx.checkedClassificationResults,
        request ∈ ctx'.checkedClassificationResults) := Iff.rfl

theorem reports_le_iff {ctx : ShortTermMemory C P}
    {bound : Set P × Set C × Set UriRef × Set UriRef} :
    ctx.reports ≤ bound ↔
      (∀ phrase ∈ ctx.notUnderstoodPhrases, phrase ∈ bound.1) ∧
      (∀ concept ∈ ctx.notUnderstoodConcepts, concept ∈ bound.2.1) ∧
      (∀ uri ∈ ctx.resultToReport.keys, uri ∈ bound.2.2.1) ∧
      (∀ uri ∈ ctx.solutionsToReport.keys, uri ∈ bound.2.2.2) := Iff.rfl

@[simp] theorem reports_setLastResult (ctx : ShortTermMemory C P) (result : Option Resource) :
    (ctx.setLastResult result).reports = ctx.reports := by
  obtain ⟨_, _, set⟩ := ctx.exists_setLastResult_eq result
  rw [set]
  rfl

theorem accumulated_le_setLastResult (ctx : ShortTermMemory C P) (result : Option Resource) :
    ctx.accumulated ≤ (ctx.setLastResult result).accumulated := by
  rw [accumulated_le_iff]
  unfold setLastResult
  split
  · split_ifs with seen
    · exact ⟨fun _ member => member, fun _ member => member, fun _ member => member⟩
    · refine ⟨fun uri member => ?_, fun request member => ?_, fun _ member => member⟩
      · exact InsertionMap.mem_keys_insert.mpr (Or.inr member)
      · exact List.mem_cons_of_mem _ member
  · refine ⟨fun uri member => ?_, fun _ member => member, fun _ member => member⟩
    exact InsertionMap.mem_keys_insert.mpr (Or.inr member)
  · exact ⟨fun _ member => member, fun _ member => member, fun _ member => member⟩

/-- A selector request set as last result is among the classification results. -/
@[simp] theorem mem_classificationResults_setLastResult {ctx : ShortTermMemory C P}
    {result : Option Resource} {request : SelectorRequest} :
    request ∈ (ctx.setLastResult result).classificationResults ↔
      request ∈ ctx.classificationResults ∨ result = some (.selectorRequest request) := by
  unfold setLastResult
  split
  case h_1 other =>
    rw [Option.some.injEq, Resource.selectorRequest.injEq]
    split_ifs with seen
    · exact (or_iff_left_of_imp fun same => same ▸ seen).symm
    · rw [List.mem_cons, or_comm, eq_comm]
  case h_2 other =>
    exact (or_iff_left fun same => other request (Option.some.inj same)).symm
  case h_3 => exact (or_iff_left nofun).symm

@[simp] theorem lastResult_setLastResult (ctx : ShortTermMemory C P) (result : Option Resource) :
    (ctx.setLastResult result).lastResult = result := by
  obtain ⟨_, _, set⟩ := ctx.exists_setLastResult_eq result
  rw [set]

@[simp] theorem checkedClassificationResults_setLastResult (ctx : ShortTermMemory C P)
    (result : Option Resource) :
    (ctx.setLastResult result).checkedClassificationResults = ctx.checkedClassificationResults := by
  obtain ⟨_, _, set⟩ := ctx.exists_setLastResult_eq result
  rw [set]

theorem knowledge_le_setLastResult (ctx : ShortTermMemory C P) (result : Option Resource) :
    ctx.knowledge ≤ (ctx.setLastResult result).knowledge :=
  ⟨ctx.accumulated_le_setLastResult result, (ctx.reports_setLastResult result).ge⟩

end ShortTermMemory

namespace ContextHelper

open ShortTermMemory

@[simp] theorem mem_mergeList {x y : List SelectorRequest} {request : SelectorRequest} :
    request ∈ mergeList x y ↔ request ∈ x ∨ request ∈ y := by
  by_cases member : request ∈ y <;> simp [mergeList, member]

/-- Merging two contexts unites what they accumulated. -/
theorem accumulated_merge (first second : ShortTermMemory C P) :
    (merge first second).accumulated = first.accumulated ⊔ second.accumulated := by
  refine Prod.ext ?_ (Prod.ext ?_ ?_)
  · ext uri
    exact InsertionMap.mem_keys_union
  · ext request
    exact mem_mergeList
  · ext request
    exact mem_mergeList

/-- Merging two contexts leaves no reports. -/
theorem reports_merge (first second : ShortTermMemory C P) :
    (merge first second).reports = ⊥ := by
  rw [eq_bot_iff, reports_le_iff]
  refine ⟨?_, ?_, ?_, ?_⟩ <;> intro _ member <;> cases member

theorem accumulated_le_foldl_merge (contexts : List (ShortTermMemory C P)) :
    ∀ first, first.accumulated ≤ (contexts.foldl merge first).accumulated ∧
      ∀ ctx ∈ contexts, ctx.accumulated ≤ (contexts.foldl merge first).accumulated := by
  induction contexts with
  | nil => exact fun first => ⟨le_rfl, fun ctx member => nomatch member⟩
  | cons second rest ih =>
    intro first
    rw [List.foldl_cons]
    obtain ⟨merged, others⟩ := ih (merge first second)
    rw [accumulated_merge] at merged
    refine ⟨le_sup_left.trans merged, fun ctx member => ?_⟩
    rcases List.mem_cons.mp member with rfl | later
    · exact le_sup_right.trans merged
    · exact others ctx later

/-- A merge of contexts keeps what each of them accumulated. -/
theorem accumulated_le_mergeAll {contexts : List (ShortTermMemory C P)}
    {ctx : ShortTermMemory C P} (member : ctx ∈ contexts) :
    ctx.accumulated ≤ (mergeAll contexts).accumulated := by
  cases contexts with
  | nil => cases member
  | cons first rest =>
    obtain ⟨head, others⟩ := accumulated_le_foldl_merge rest first
    rcases List.mem_cons.mp member with rfl | later
    · exact head
    · exact others ctx later

theorem reports_foldl_merge (contexts : List (ShortTermMemory C P)) :
    ∀ first second, (contexts.foldl merge (merge first second)).reports = ⊥ := by
  induction contexts with
  | nil => exact reports_merge
  | cons third rest ih => exact fun first second => ih (merge first second) third

/-- A merge of several contexts leaves no reports. -/
theorem reports_mergeAll {contexts : List (ShortTermMemory C P)}
    (several : 2 ≤ contexts.length) : (mergeAll contexts).reports = ⊥ := by
  match contexts, several with
  | first :: second :: rest, _ => exact reports_foldl_merge rest first second

theorem mem_keys_foldl_merge {τ : Type} (line : ShortTermMemory C P → TypedKLine τ)
    {uri : UriRef} (contexts : List (ShortTermMemory C P)) :
    ∀ accum : TypedKLine τ,
      uri ∈ (contexts.foldl (fun accum c => accum.merge (line c)) accum).keys ↔
        uri ∈ accum.keys ∨ ∃ c ∈ contexts, uri ∈ (line c).keys := by
  induction contexts with
  | nil => simp
  | cons first rest ih =>
    intro accum
    rw [List.foldl_cons, ih, TypedKLine.mem_keys_merge, List.exists_mem_cons_iff]
    tauto

section Base

variable [DecidableEq C] [DecidableEq P]

theorem accumulated_le_mergeWithBaseContext (base : ShortTermMemory C P)
    (supplemental : List (ShortTermMemory C P)) {ctx : ShortTermMemory C P}
    (member : ctx ∈ base :: supplemental) :
    ctx.accumulated ≤ (mergeWithBaseContext base supplemental).accumulated :=
  (accumulated_le_mergeAll member).trans (accumulated_le_setLastResult _ _)

/-- The classification results of a merge onto a base: those of the contexts merged, and the
last result, when it is a selector request. -/
theorem mem_classificationResults_mergeWithBaseContext {base : ShortTermMemory C P}
    {supplemental : List (ShortTermMemory C P)} {request : SelectorRequest} :
    request ∈ (mergeWithBaseContext base supplemental).classificationResults ↔
      request ∈ (mergeAll (base :: supplemental)).classificationResults ∨
        (((base :: supplemental).getLast (List.cons_ne_nil _ _)).lastResult <|>
          base.lastResult) = some (.selectorRequest request) :=
  mem_classificationResults_setLastResult

/-- The last result of a merge onto a base: that of the last context, or that of the base. -/
theorem lastResult_mergeWithBaseContext (base : ShortTermMemory C P)
    (supplemental : List (ShortTermMemory C P)) :
    (mergeWithBaseContext base supplemental).lastResult =
      (((base :: supplemental).getLast (List.cons_ne_nil _ _)).lastResult <|> base.lastResult) :=
  lastResult_setLastResult _ _

theorem checkedClassificationResults_mergeWithBaseContext (base : ShortTermMemory C P)
    (supplemental : List (ShortTermMemory C P)) :
    (mergeWithBaseContext base supplemental).checkedClassificationResults =
      (mergeAll (base :: supplemental)).checkedClassificationResults :=
  checkedClassificationResults_setLastResult _ _

theorem mem_notUnderstoodPhrases_mergeWithBaseContext {base : ShortTermMemory C P}
    {supplemental : List (ShortTermMemory C P)} {phrase : P} :
    phrase ∈ (mergeWithBaseContext base supplemental).notUnderstoodPhrases ↔
      ∃ c ∈ base :: supplemental, phrase ∈ c.notUnderstoodPhrases := by
  simp only [mergeWithBaseContext, List.mem_eraseDups, List.mem_flatMap]

theorem mem_notUnderstoodConcepts_mergeWithBaseContext {base : ShortTermMemory C P}
    {supplemental : List (ShortTermMemory C P)} {concept : C} :
    concept ∈ (mergeWithBaseContext base supplemental).notUnderstoodConcepts ↔
      ∃ c ∈ base :: supplemental, concept ∈ c.notUnderstoodConcepts := by
  simp only [mergeWithBaseContext, List.mem_eraseDups, List.mem_flatMap]

theorem mem_keys_resultToReport_mergeWithBaseContext {base : ShortTermMemory C P}
    {supplemental : List (ShortTermMemory C P)} {uri : UriRef} :
    uri ∈ (mergeWithBaseContext base supplemental).resultToReport.keys ↔
      ∃ c ∈ base :: supplemental, uri ∈ c.resultToReport.keys := by
  refine (mem_keys_foldl_merge resultToReport (base :: supplemental) {}).trans ?_
  exact or_iff_right (List.not_mem_nil)

theorem mem_keys_solutionsToReport_mergeWithBaseContext {base : ShortTermMemory C P}
    {supplemental : List (ShortTermMemory C P)} {uri : UriRef} :
    uri ∈ (mergeWithBaseContext base supplemental).solutionsToReport.keys ↔
      ∃ c ∈ base :: supplemental, uri ∈ c.solutionsToReport.keys := by
  refine (mem_keys_foldl_merge solutionsToReport (base :: supplemental) {}).trans ?_
  exact or_iff_right (List.not_mem_nil)

/-- The reports of a merge onto a base are the union of those of the contexts merged. -/
theorem isLUB_reports_mergeWithBaseContext (base : ShortTermMemory C P)
    (supplemental : List (ShortTermMemory C P)) :
    IsLUB {x | ∃ ctx ∈ base :: supplemental, x = ctx.reports}
      (mergeWithBaseContext base supplemental).reports := by
  constructor
  · rintro _ ⟨ctx, member, rfl⟩
    -- each of the four collections of the merge holds what some context held
    rw [reports_le_iff]
    refine ⟨fun phrase h => ?_, fun concept h => ?_, fun uri h => ?_, fun uri h => ?_⟩
    · exact mem_notUnderstoodPhrases_mergeWithBaseContext.mpr ⟨ctx, member, h⟩
    · exact mem_notUnderstoodConcepts_mergeWithBaseContext.mpr ⟨ctx, member, h⟩
    · exact mem_keys_resultToReport_mergeWithBaseContext.mpr ⟨ctx, member, h⟩
    · exact mem_keys_solutionsToReport_mergeWithBaseContext.mpr ⟨ctx, member, h⟩
  · intro bound upper
    have below : ∀ ctx ∈ base :: supplemental, ctx.reports ≤ bound :=
      fun ctx member => upper ⟨ctx, member, rfl⟩
    rw [reports_le_iff]
    refine ⟨fun phrase h => ?_, fun concept h => ?_, fun uri h => ?_, fun uri h => ?_⟩
    · obtain ⟨c, member, inside⟩ := mem_notUnderstoodPhrases_mergeWithBaseContext.mp h
      exact (reports_le_iff.mp (below c member)).1 phrase inside
    · obtain ⟨c, member, inside⟩ := mem_notUnderstoodConcepts_mergeWithBaseContext.mp h
      exact (reports_le_iff.mp (below c member)).2.1 concept inside
    · obtain ⟨c, member, inside⟩ := mem_keys_resultToReport_mergeWithBaseContext.mp h
      exact (reports_le_iff.mp (below c member)).2.2.1 uri inside
    · obtain ⟨c, member, inside⟩ := mem_keys_solutionsToReport_mergeWithBaseContext.mp h
      exact (reports_le_iff.mp (below c member)).2.2.2 uri inside

/-- Merging onto a base loses no knowledge. -/
theorem knowledge_le_mergeWithBaseContext (base : ShortTermMemory C P)
    (supplemental : List (ShortTermMemory C P)) {ctx : ShortTermMemory C P}
    (member : ctx ∈ base :: supplemental) :
    ctx.knowledge ≤ (mergeWithBaseContext base supplemental).knowledge :=
  ⟨accumulated_le_mergeWithBaseContext base supplemental member,
    (isLUB_reports_mergeWithBaseContext base supplemental).1 ⟨ctx, member, rfl⟩⟩

end Base

end ContextHelper

end ThinkingUnderstanding
