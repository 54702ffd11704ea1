import ThinkingUnderstanding.Context.Knowledge
import ThinkingUnderstanding.LifeCycle.ThinkingLifeCycle

/-!
# What a join of actions leaves

A join asks its actions one after another, merges the contexts they return and hands the
merge to `copyGlobalContext`. The same actions listed in the goal itself would each be
handed to `copyGlobalContext`. Merging two contexts unites frames and classification
results and starts every other field again, so from two actions on the join loses the
last results, the reports and the simulation result that only the returned contexts have.

Here a result is an entry, not only a key: a frame that another action files under the
same URI with another resource is lost too.

## Main definitions

* `ShortTermMemory.Includes` — a context has every result of another one
* `JoinWay2Think.gathered` — the global context after a join
* `JoinWay2Think.oneByOne` — the global context after the same contexts one by one
* `JoinWay2Think.Gathers` — when a join loses nothing

## Main results

* `JoinWay2Think.includes_gathered_iff` — what a join of returned contexts keeps
* `JoinWay2Think.knowledge_le_oneByOne` — one by one all knowledge is kept
* `losesNothing_iff` — the same along the runs of a join
-/

namespace ThinkingUnderstanding

open Math Semantics

variable {σ C P : Type}

namespace ShortTermMemory

/-- What `c` reports is reported by `ctx`. -/
structure IncludesReports (ctx c : ShortTermMemory C P) : Prop where
  notUnderstoodPhrases : c.notUnderstoodPhrases ⊆ ctx.notUnderstoodPhrases
  notUnderstoodConcepts : c.notUnderstoodConcepts ⊆ ctx.notUnderstoodConcepts
  resultToReport : c.resultToReport.frames.entries ⊆ ctx.resultToReport.frames.entries
  solutionsToReport : c.solutionsToReport.frames.entries ⊆ ctx.solutionsToReport.frames.entries

/-- The context reports nothing. -/
structure Silent (ctx : ShortTermMemory C P) : Prop where
  notUnderstoodPhrases : ctx.notUnderstoodPhrases = []
  notUnderstoodConcepts : ctx.notUnderstoodConcepts = []
  resultToReport : ctx.resultToReport = {}
  solutionsToReport : ctx.solutionsToReport = {}

theorem IncludesReports.refl (ctx : ShortTermMemory C P) : ctx.IncludesReports ctx :=
  ⟨List.Subset.refl _, List.Subset.refl _, List.Subset.refl _, List.Subset.refl _⟩

/-- What `c` has found, apart from its frames, is in `ctx`. A selector request that is the
last result of `c` is a classification result of `ctx`. -/
structure IncludesFindings (ctx c : ShortTermMemory C P) : Prop where
  classificationResults : c.classificationResults ⊆ ctx.classificationResults
  lastResult : ∀ request, c.lastResult = some (.selectorRequest request) →
    request ∈ ctx.classificationResults
  reports : ctx.IncludesReports c
  simulationResult : ∀ result, c.simulationResult = some result →
    ctx.simulationResult = some result

/-- The results of `c` are in `ctx`. -/
structure Includes (ctx c : ShortTermMemory C P) : Prop extends IncludesFindings ctx c where
  frames : c.frames.entries ⊆ ctx.frames.entries

/-- Under one URI both contexts file the same resource. -/
def FramesAgree (ctx c : ShortTermMemory C P) : Prop :=
  ∀ uri r r', (uri, r) ∈ ctx.frames.entries → (uri, r') ∈ c.frames.entries → r = r'

theorem FramesAgree.symm {ctx c : ShortTermMemory C P} (agree : ctx.FramesAgree c) :
    c.FramesAgree ctx := fun uri r r' first second => (agree uri r' r second first).symm

/-- Two contexts that are included in one agree on their frames. -/
theorem framesAgree_of_subset {ctx c c' : ShortTermMemory C P}
    (first : c.frames.entries ⊆ ctx.frames.entries)
    (second : c'.frames.entries ⊆ ctx.frames.entries) : c.FramesAgree c' :=
  fun _ _ _ here there => InsertionMap.eq_of_mem_entries (first here) (second there)

/-- The resource that the setter of the last result files: a selector request seen before
is not filed again. -/
def filedResult (ctx : ShortTermMemory C P) : Option Resource → Option Resource
  | some (.selectorRequest request) =>
      if request ∈ ctx.classificationResults then none else some (.selectorRequest request)
  | result => result

theorem filedResult_eq_some_iff {ctx : ShortTermMemory C P} {result : Option Resource}
    {resource : Resource} :
    ctx.filedResult result = some resource ↔
      result = some resource ∧
        ∀ request, resource = .selectorRequest request → request ∉ ctx.classificationResults := by
  unfold filedResult
  split
  case h_1 request =>
    split_ifs with seen
    · refine iff_of_false nofun ?_
      rintro ⟨same, unseen⟩
      exact unseen request (Option.some.inj same).symm seen
    · refine ⟨fun same => ⟨same, ?_⟩, And.left⟩
      rintro other rfl
      obtain rfl : request = other := Resource.selectorRequest.inj (Option.some.inj same)
      exact seen
  case h_2 other =>
    refine ⟨fun same => ⟨same, ?_⟩, And.left⟩
    rintro request rfl
    exact absurd same (other request)

theorem frames_setLastResult (ctx : ShortTermMemory C P) (result : Option Resource) :
    (ctx.setLastResult result).frames =
      (ctx.filedResult result).elim ctx.frames fun r => ctx.frames.insert r.uri r := by
  unfold setLastResult
  split
  case h_1 request =>
    split_ifs with seen
    · simp only [filedResult, if_pos seen, Option.elim_none]
    · simp only [filedResult, if_neg seen, Option.elim_some]
      rfl
  case h_2 resource other =>
    have filed : ctx.filedResult (some resource) = some resource := by
      unfold filedResult
      split
      case h_1 request same => exact absurd (Option.some.inj same) (other request)
      case h_2 => rfl
    rw [filed, Option.elim_some]
  case h_3 => rfl

/-- Frames survive the setter of the last result exactly when it files no other resource
under one of their URIs. -/
theorem subset_frames_setLastResult_iff {ctx : ShortTermMemory C P} {result : Option Resource}
    {entries : List (UriRef × Resource)} (present : entries ⊆ ctx.frames.entries) :
    entries ⊆ (ctx.setLastResult result).frames.entries ↔
      ∀ resource, ctx.filedResult result = some resource →
        ∀ r, (resource.uri, r) ∈ entries → r = resource := by
  rw [frames_setLastResult]
  cases ctx.filedResult result with
  | none => exact iff_of_true present nofun
  | some resource =>
    rw [Option.elim_some]
    constructor
    · rintro kept _ ⟨⟩ r member
      exact InsertionMap.eq_of_mem_entries (kept member)
        (InsertionMap.mem_entries_insert_self _ _ _)
    · rintro same ⟨uri, r⟩ member
      by_cases here : uri = resource.uri
      · subst here
        exact InsertionMap.mem_entries_insert.mpr (Or.inl ⟨rfl, same resource rfl r member⟩)
      · exact InsertionMap.mem_entries_insert.mpr (Or.inr ⟨here, present member⟩)

end ShortTermMemory

namespace ContextHelper

/-- A merge of several contexts ends with a merge of two. -/
theorem exists_mergeAll_eq_merge {contexts : List (ShortTermMemory C P)}
    (several : 2 ≤ contexts.length) : ∃ first second, mergeAll contexts = merge first second := by
  have folded : ∀ (rest : List (ShortTermMemory C P)) first second, ∃ first' second',
      rest.foldl merge (merge first second) = merge first' second' := by
    intro rest
    induction rest with
    | nil => exact fun first second => ⟨first, second, rfl⟩
    | cons third rest ih => exact fun first second => ih (merge first second) third
  match contexts, several with
  | first :: second :: rest, _ => exact folded rest first second

/-- A merge of other than one context is silent. -/
theorem silent_mergeAll (contexts : List (ShortTermMemory C P)) (other : contexts.length ≠ 1) :
    (mergeAll contexts).Silent := by
  match contexts, other with
  | [], _ => exact ⟨rfl, rfl, rfl, rfl⟩
  | first :: second :: rest, _ =>
    obtain ⟨_, _, merged⟩ :=
      exists_mergeAll_eq_merge (show 2 ≤ (first :: second :: rest).length by simp)
    rw [merged]
    exact ⟨rfl, rfl, rfl, rfl⟩

@[simp] theorem mem_classificationResults_mergeAll {contexts : List (ShortTermMemory C P)}
    {request : SelectorRequest} :
    request ∈ (mergeAll contexts).classificationResults ↔
      ∃ c ∈ contexts, request ∈ c.classificationResults := by
  have folded : ∀ (rest : List (ShortTermMemory C P)) first,
      request ∈ (rest.foldl merge first).classificationResults ↔
        ∃ c ∈ first :: rest, request ∈ c.classificationResults := by
    intro rest
    induction rest with
    | nil => simp
    | cons second rest ih =>
      intro first
      rw [List.foldl_cons, ih (merge first second)]
      simp only [List.exists_mem_cons_iff, merge, createContext, mem_mergeList]
      exact or_assoc
  cases contexts with
  | nil => simp [mergeAll, anonymousContext, ofResources]
  | cons first rest => exact folded rest first

/-- A frame of a merge of two contexts is a frame of one of them. -/
theorem mem_frames_of_merge {first second : ShortTermMemory C P} {entry : UriRef × Resource}
    (member : entry ∈ (merge first second).frames.entries) :
    entry ∈ first.frames.entries ∨ entry ∈ second.frames.entries := by
  rcases InsertionMap.mem_entries_union.mp member with late | ⟨-, early⟩
  · exact Or.inr late
  · exact Or.inl early

/-- The frames of the second context survive a merge, and those of the first one where the
two agree. -/
theorem subset_frames_merge (first second : ShortTermMemory C P) :
    second.frames.entries ⊆ (merge first second).frames.entries ∧
      (first.FramesAgree second → first.frames.entries ⊆ (merge first second).frames.entries) := by
  refine ⟨fun entry member => InsertionMap.mem_entries_union.mpr (Or.inl member), ?_⟩
  rintro agree ⟨uri, r⟩ member
  refine InsertionMap.mem_entries_union.mpr ?_
  by_cases later : uri ∈ second.frames.keys
  · obtain ⟨⟨_, r'⟩, present, rfl⟩ := List.mem_map.mp later
    exact Or.inl (agree _ r r' member present ▸ present)
  · exact Or.inr ⟨later, member⟩

/-- Contexts that agree on their frames keep them all in a merge. -/
theorem subset_frames_mergeAll {contexts : List (ShortTermMemory C P)}
    (agree : ∀ c ∈ contexts, ∀ c' ∈ contexts, c.FramesAgree c') :
    ∀ c ∈ contexts, c.frames.entries ⊆ (mergeAll contexts).frames.entries := by
  have folded : ∀ (rest : List (ShortTermMemory C P)) first,
      (∀ c ∈ first :: rest, ∀ c' ∈ first :: rest, c.FramesAgree c') →
        ∀ c ∈ first :: rest, c.frames.entries ⊆ (rest.foldl merge first).frames.entries := by
    intro rest
    induction rest with
    | nil =>
      intro first _ c member
      rw [List.mem_singleton.mp member, List.foldl_nil]
      exact List.Subset.refl _
    | cons second rest ih =>
      intro first agree
      obtain ⟨ofFirst, ofRest⟩ := List.forall_mem_cons.mp agree
      obtain ⟨ofSecond, -⟩ := List.forall_mem_cons.mp ofRest
      obtain ⟨late, early⟩ := subset_frames_merge first second
      have early := early (ofFirst second (by simp))
      -- the merge of the first two agrees with whatever both agree with
      have merged : ∀ c' ∈ first :: second :: rest, (merge first second).FramesAgree c' := by
        intro c' member uri r r' here there
        rcases mem_frames_of_merge here with first | second
        · exact ofFirst c' member uri r r' first there
        · exact ofSecond c' member uri r r' second there
      have later := ih (merge first second) (by
        intro c member c' member'
        rcases List.mem_cons.mp member with rfl | inside
        · rcases List.mem_cons.mp member' with rfl | inside'
          · exact ShortTermMemory.framesAgree_of_subset (List.Subset.refl _) (List.Subset.refl _)
          · exact merged c' (by simp [inside'])
        · rcases List.mem_cons.mp member' with rfl | inside'
          · exact (merged c (by simp [inside])).symm
          · exact agree c (by simp [inside]) c' (by simp [inside']))
      obtain ⟨head, tail⟩ := List.forall_mem_cons.mp later
      rw [List.forall_mem_cons, List.forall_mem_cons]
      exact ⟨List.Subset.trans early head, List.Subset.trans late head, tail⟩
  cases contexts with
  | nil => exact fun c member => nomatch member
  | cons first rest => exact folded rest first agree

section Base

variable [DecidableEq C] [DecidableEq P]

/-- The frames of a merge onto a base: those of the merge, with the last result filed. -/
theorem frames_mergeWithBaseContext (base : ShortTermMemory C P)
    (supplemental : List (ShortTermMemory C P)) :
    (mergeWithBaseContext base supplemental).frames =
      ((mergeAll (base :: supplemental)).setLastResult
        (((base :: supplemental).getLast (List.cons_ne_nil _ _)).lastResult <|>
          base.lastResult)).frames := rfl

theorem simulationResult_mergeWithBaseContext (g c : ShortTermMemory C P) :
    (mergeWithBaseContext g [g, c]).simulationResult =
      (g.simulationResult <|> c.simulationResult) := by
  change [g, g, c].findSome? ShortTermMemory.simulationResult = _
  cases found : g.simulationResult <;> simp [found]

/-- A line of a merge of one context onto a base files what the context files, and what the
base files elsewhere. -/
theorem mem_merge_merge_merge {τ : Type} {line other : TypedKLine τ} {uri : UriRef} {r : τ} :
    (uri, r) ∈ (((({} : TypedKLine τ).merge line).merge line).merge other).frames.entries ↔
      (uri, r) ∈ other.frames.entries ∨ (uri ∉ other.keys ∧ (uri, r) ∈ line.frames.entries) := by
  have none : (uri, r) ∉ (({} : TypedKLine τ)).frames.entries := List.not_mem_nil
  simp only [TypedKLine.merge, InsertionMap.mem_entries_union, TypedKLine.keys, none, and_false,
    or_false]
  tauto

/-- A context merged onto a base has its reports included. -/
theorem includesReports_mergeWithBaseContext (g c : ShortTermMemory C P) :
    (mergeWithBaseContext g [g, c]).IncludesReports c where
  notUnderstoodPhrases phrase member :=
    mem_notUnderstoodPhrases_mergeWithBaseContext.mpr ⟨c, by simp, member⟩
  notUnderstoodConcepts concept member :=
    mem_notUnderstoodConcepts_mergeWithBaseContext.mpr ⟨c, by simp, member⟩
  resultToReport := fun (_, _) member => mem_merge_merge_merge.mpr (Or.inl member)
  solutionsToReport := fun (_, _) member => mem_merge_merge_merge.mpr (Or.inl member)

/-- What reports what a base and a context report includes what their merge reports. -/
theorem includesReports_mergeWithBaseContext_of_includes {ctx g c : ShortTermMemory C P}
    (base : ctx.IncludesReports g) (supplement : ctx.IncludesReports c) :
    ctx.IncludesReports (ContextHelper.mergeWithBaseContext g [g, c]) := by
  -- an entry of the merged line comes from one of the two lines
  have lines : ∀ {τ : Type} {line other bound : TypedKLine τ},
      line.frames.entries ⊆ bound.frames.entries → other.frames.entries ⊆ bound.frames.entries →
        (((({} : TypedKLine τ).merge line).merge line).merge other).frames.entries ⊆
          bound.frames.entries := by
    rintro τ line other bound below below' ⟨uri, r⟩ member
    rcases mem_merge_merge_merge.mp member with late | ⟨-, early⟩
    · exact below' late
    · exact below early
  refine ⟨fun phrase member => ?_, fun concept member => ?_,
    lines base.resultToReport supplement.resultToReport,
    lines base.solutionsToReport supplement.solutionsToReport⟩
  · obtain ⟨c', inside, present⟩ := mem_notUnderstoodPhrases_mergeWithBaseContext.mp member
    simp only [List.mem_cons, List.not_mem_nil, or_false, or_self_left] at inside
    rcases inside with rfl | rfl
    · exact base.notUnderstoodPhrases present
    · exact supplement.notUnderstoodPhrases present
  · obtain ⟨c', inside, present⟩ := mem_notUnderstoodConcepts_mergeWithBaseContext.mp member
    simp only [List.mem_cons, List.not_mem_nil, or_false, or_self_left] at inside
    rcases inside with rfl | rfl
    · exact base.notUnderstoodConcepts present
    · exact supplement.notUnderstoodConcepts present

/-- A silent context, merged onto a base, brings in no report. -/
theorem includesReports_mergeWithBaseContext_iff_of_silent {g c silent : ShortTermMemory C P}
    (nothing : silent.Silent) :
    (mergeWithBaseContext g [g, silent]).IncludesReports c ↔ g.IncludesReports c := by
  -- merging a line with itself and with an empty one leaves its entries
  have line : ∀ {τ : Type} {line : TypedKLine τ} {entry : UriRef × τ},
      entry ∈ (((({} : TypedKLine τ).merge line).merge line).merge {}).frames.entries ↔
        entry ∈ line.frames.entries := by
    rintro τ line ⟨uri, r⟩
    rw [mem_merge_merge_merge]
    exact (or_iff_right List.not_mem_nil).trans (and_iff_right List.not_mem_nil)
  have phrases : (mergeWithBaseContext g [g, silent]).notUnderstoodPhrases ⊆
      g.notUnderstoodPhrases ∧
      g.notUnderstoodPhrases ⊆ (mergeWithBaseContext g [g, silent]).notUnderstoodPhrases := by
    simp [List.subset_def, mem_notUnderstoodPhrases_mergeWithBaseContext,
      nothing.notUnderstoodPhrases]
  have concepts : (mergeWithBaseContext g [g, silent]).notUnderstoodConcepts ⊆
      g.notUnderstoodConcepts ∧
      g.notUnderstoodConcepts ⊆ (mergeWithBaseContext g [g, silent]).notUnderstoodConcepts := by
    simp [List.subset_def, mem_notUnderstoodConcepts_mergeWithBaseContext,
      nothing.notUnderstoodConcepts]
  have results : ∀ {entry},
      entry ∈ (mergeWithBaseContext g [g, silent]).resultToReport.frames.entries ↔
        entry ∈ g.resultToReport.frames.entries := by
    intro entry
    have merged : (mergeWithBaseContext g [g, silent]).resultToReport =
        ((({} : TypedKLine (Narrative C)).merge g.resultToReport).merge g.resultToReport).merge
          silent.resultToReport := rfl
    rw [merged, nothing.resultToReport]
    exact line
  have solutions : ∀ {entry},
      entry ∈ (mergeWithBaseContext g [g, silent]).solutionsToReport.frames.entries ↔
        entry ∈ g.solutionsToReport.frames.entries := by
    intro entry
    have merged : (mergeWithBaseContext g [g, silent]).solutionsToReport =
        ((({} : TypedKLine (Narrative ℕ)).merge g.solutionsToReport).merge
          g.solutionsToReport).merge silent.solutionsToReport := rfl
    rw [merged, nothing.solutionsToReport]
    exact line
  constructor
  · rintro ⟨ofPhrases, ofConcepts, ofResults, ofSolutions⟩
    exact ⟨List.Subset.trans ofPhrases phrases.1, List.Subset.trans ofConcepts concepts.1,
      fun _ member => results.mp (ofResults member),
      fun _ member => solutions.mp (ofSolutions member)⟩
  · rintro ⟨ofPhrases, ofConcepts, ofResults, ofSolutions⟩
    exact ⟨List.Subset.trans ofPhrases phrases.2, List.Subset.trans ofConcepts concepts.2,
      fun _ member => results.mpr (ofResults member),
      fun _ member => solutions.mpr (ofSolutions member)⟩

end Base

end ContextHelper

namespace JoinWay2Think

open ShortTermMemory ContextHelper

section

variable [DecidableEq C] [DecidableEq P]

/-- The global context after a join whose actions returned these contexts. -/
def gathered (g : ShortTermMemory C P) (contexts : List (ShortTermMemory C P)) :
    ShortTermMemory C P :=
  mergeWithBaseContext g [g, mergeAll contexts]

/-- The global context after the same contexts are merged into it one by one. -/
def oneByOne (g : ShortTermMemory C P) (contexts : List (ShortTermMemory C P)) :
    ShortTermMemory C P :=
  contexts.foldl (fun g c => mergeWithBaseContext g [g, c]) g

/-- One by one, the knowledge of every context is kept. -/
theorem knowledge_le_oneByOne (contexts : List (ShortTermMemory C P)) :
    ∀ g, ∀ c ∈ g :: contexts, c.knowledge ≤ (oneByOne g contexts).knowledge := by
  induction contexts with
  | nil =>
    intro g c member
    rw [List.mem_singleton.mp member]
    exact le_rfl
  | cons first rest ih =>
    intro g c member
    let merged := mergeWithBaseContext g [g, first]
    have later := ih merged
    rcases List.mem_cons.mp member with rfl | inside
    · exact (knowledge_le_mergeWithBaseContext c [c, first] (by simp)).trans
        (later merged List.mem_cons_self)
    rcases List.mem_cons.mp inside with rfl | inside
    · exact (knowledge_le_mergeWithBaseContext g [g, c] (by simp)).trans
        (later merged List.mem_cons_self)
    · exact later c (List.mem_cons_of_mem _ inside)

end

/-- The last result of the merge of the contexts: one context keeps its own. -/
def mergedLastResult : List (ShortTermMemory C P) → Option Resource
  | [c] => c.lastResult
  | _ => none

theorem mergedLastResult_eq_none {contexts : List (ShortTermMemory C P)}
    (other : contexts.length ≠ 1) : mergedLastResult contexts = none := by
  match contexts, other with
  | [], _ => rfl
  | _ :: _ :: _, _ => rfl

/-- A resource that is filed once more when the join is merged into the global context: the
last result, unless it is a selector request that was seen before. -/
def FilesAgain (g : ShortTermMemory C P) (contexts : List (ShortTermMemory C P))
    (resource : Resource) : Prop :=
  (mergedLastResult contexts <|> g.lastResult) = some resource ∧
    ∀ request, resource = .selectorRequest request →
      ∀ c ∈ g :: contexts, request ∉ c.classificationResults

/-- When a join loses no result of the contexts its actions returned, `g` being the global
context they are merged into. -/
structure Gathers (g : ShortTermMemory C P) (contexts : List (ShortTermMemory C P)) : Prop where
  /-- No two contexts file different resources under one URI. -/
  frames : ∀ c ∈ contexts, ∀ c' ∈ contexts, c.FramesAgree c'
  filedAgain : ∀ resource, FilesAgain g contexts resource →
    ∀ c ∈ contexts, ∀ r, (resource.uri, r) ∈ c.frames.entries → r = resource
  /-- A request that is the last result of a context is a classification result as well, or
  the last result of the only context or of the global one. -/
  lastResult : ∀ c ∈ contexts, ∀ request, c.lastResult = some (.selectorRequest request) →
    (∃ c' ∈ g :: contexts, request ∈ c'.classificationResults) ∨
      (mergedLastResult contexts <|> g.lastResult) = some (.selectorRequest request)
  /-- Several contexts report nothing that the global context does not report. -/
  reports : 2 ≤ contexts.length → ∀ c ∈ contexts, g.IncludesReports c
  simulationResult : ∀ c ∈ contexts, ∀ result, c.simulationResult = some result →
    g.simulationResult = some result ∨ (g.simulationResult = none ∧ contexts.length = 1)

/-- One context is passed on as it is, and more than one leave no last result. -/
theorem lastResult_mergeAll (contexts : List (ShortTermMemory C P)) :
    (mergeAll contexts).lastResult = mergedLastResult contexts := by
  match contexts with
  | [] => rfl
  | [c] => rfl
  | first :: second :: rest =>
    obtain ⟨_, _, merged⟩ := exists_mergeAll_eq_merge (show 2 ≤ (first :: second :: rest).length by simp)
    rw [merged]
    rfl

theorem lastResult_getLast (g : ShortTermMemory C P) (contexts : List (ShortTermMemory C P)) :
    ((g :: [g, mergeAll contexts]).getLast (List.cons_ne_nil _ _)).lastResult =
      mergedLastResult contexts := lastResult_mergeAll contexts

theorem simulationResult_mergeAll_eq_some_iff {contexts : List (ShortTermMemory C P)}
    {result : NetworkRef} :
    (mergeAll contexts).simulationResult = some result ↔
      ∃ c, contexts = [c] ∧ c.simulationResult = some result := by
  match contexts with
  | [] =>
    have none : (mergeAll ([] : List (ShortTermMemory C P))).simulationResult = none := rfl
    rw [none]
    simp
  | [c] => simp [mergeAll]
  | first :: second :: rest =>
    obtain ⟨_, _, merged⟩ := exists_mergeAll_eq_merge (show 2 ≤ (first :: second :: rest).length by simp)
    rw [merged]
    simp [merge, createContext]

section

variable [DecidableEq C] [DecidableEq P] (g : ShortTermMemory C P)
  (contexts : List (ShortTermMemory C P))

theorem mem_classificationResults_gathered {request : SelectorRequest} :
    request ∈ (gathered g contexts).classificationResults ↔
      (∃ c ∈ g :: contexts, request ∈ c.classificationResults) ∨
        (mergedLastResult contexts <|> g.lastResult) = some (.selectorRequest request) := by
  have last := lastResult_getLast g contexts
  rw [gathered, mem_classificationResults_mergeWithBaseContext, last,
    mem_classificationResults_mergeAll]
  simp

/-- The frames of the contexts survive a join exactly when they agree with one another and
with what is filed again. -/
theorem subset_frames_gathered_iff :
    (∀ c ∈ contexts, c.frames.entries ⊆ (gathered g contexts).frames.entries) ↔
      (∀ c ∈ contexts, ∀ c' ∈ contexts, c.FramesAgree c') ∧
        ∀ resource, FilesAgain g contexts resource →
          ∀ c ∈ contexts, ∀ r, (resource.uri, r) ∈ c.frames.entries → r = resource := by
  let base := mergeAll [g, g, mergeAll contexts]
  have last := lastResult_getLast g contexts
  have set : (gathered g contexts).frames =
      (base.setLastResult (mergedLastResult contexts <|> g.lastResult)).frames := by
    rw [gathered, frames_mergeWithBaseContext, last]
  have filed : ∀ resource, base.filedResult (mergedLastResult contexts <|> g.lastResult) =
      some resource ↔ FilesAgain g contexts resource := by
    intro resource
    rw [filedResult_eq_some_iff, FilesAgain]
    simp [base]
  -- the merge of the contexts is the last one merged, so all its frames are in the base
  have present : (mergeAll contexts).frames.entries ⊆ base.frames.entries :=
    (subset_frames_merge (merge g g) (mergeAll contexts)).1
  rw [set]
  constructor
  · intro kept
    refine ⟨fun c member c' member' => framesAgree_of_subset (kept c member) (kept c' member'), ?_⟩
    intro resource again c member r here
    have survives := kept c member
    rw [frames_setLastResult, (filed resource).mpr again, Option.elim_some] at survives
    exact InsertionMap.eq_of_mem_entries (survives here)
      (InsertionMap.mem_entries_insert_self _ _ _)
  · rintro ⟨agree, again⟩ c member
    have inside := List.Subset.trans (subset_frames_mergeAll agree c member) present
    rw [subset_frames_setLastResult_iff inside]
    exact fun resource found => again resource ((filed resource).mp found) c member

/-- The reports of the contexts survive a join exactly when there is one context, or the
global context reports them already. -/
theorem includesReports_gathered_iff :
    (∀ c ∈ contexts, (gathered g contexts).IncludesReports c) ↔
      (2 ≤ contexts.length → ∀ c ∈ contexts, g.IncludesReports c) := by
  match contexts with
  | [] => simp
  | [c] =>
    refine iff_of_true (fun c' member => ?_) fun several => absurd several (by simp)
    rw [List.mem_singleton.mp member]
    exact includesReports_mergeWithBaseContext g c
  | first :: second :: rest =>
    have several : 2 ≤ (first :: second :: rest).length := by simp
    have nothing := silent_mergeAll (first :: second :: rest) (by simp)
    simp only [gathered, includesReports_mergeWithBaseContext_iff_of_silent nothing,
      forall_prop_of_true several]

theorem simulationResult_gathered_eq_some_iff {result : NetworkRef} :
    (gathered g contexts).simulationResult = some result ↔
      g.simulationResult = some result ∨
        (g.simulationResult = none ∧ ∃ c, contexts = [c] ∧ c.simulationResult = some result) := by
  rw [gathered, simulationResult_mergeWithBaseContext, ← simulationResult_mergeAll_eq_some_iff]
  cases g.simulationResult <;> simp

/-- A join keeps every result of the contexts its actions returned exactly when they are
gathered. -/
theorem includes_gathered_iff :
    (∀ c ∈ contexts, (gathered g contexts).Includes c) ↔ Gathers g contexts := by
  constructor
  · intro kept
    obtain ⟨agree, again⟩ :=
      (subset_frames_gathered_iff g contexts).mp fun c member => (kept c member).frames
    refine ⟨agree, again, fun c member request last => ?_, ?_, fun c member result found => ?_⟩
    · exact (mem_classificationResults_gathered g contexts).mp
        ((kept c member).lastResult request last)
    · exact (includesReports_gathered_iff g contexts).mp fun c member => (kept c member).reports
    · have survives := (kept c member).simulationResult result found
      rw [simulationResult_gathered_eq_some_iff] at survives
      refine survives.imp_right ?_
      rintro ⟨none, only, single, -⟩
      exact ⟨none, by simp [single]⟩
  · rintro ⟨agree, again, requests, reported, simulated⟩ c member
    refine ⟨⟨fun request inside => ?_, fun request last => ?_, ?_, fun result found => ?_⟩, ?_⟩
    · exact (mem_classificationResults_gathered g contexts).mpr
        (Or.inl ⟨c, List.mem_cons_of_mem _ member, inside⟩)
    · exact (mem_classificationResults_gathered g contexts).mpr (requests c member request last)
    · exact (includesReports_gathered_iff g contexts).mpr reported c member
    · rw [simulationResult_gathered_eq_some_iff]
      refine (simulated c member result found).imp_right ?_
      rintro ⟨none, single⟩
      obtain ⟨only, rfl⟩ := List.length_eq_one_iff.mp single
      exact ⟨none, only, rfl, List.mem_singleton.mp member ▸ found⟩
    · exact (subset_frames_gathered_iff g contexts).mpr ⟨agree, again⟩ c member

/-- What has found what a base and a context found has found what their merge did. -/
theorem includesFindings_mergeWithBaseContext {ctx c : ShortTermMemory C P}
    (base : ctx.IncludesFindings g) (supplement : ctx.IncludesFindings c) :
    ctx.IncludesFindings (mergeWithBaseContext g [g, c]) := by
  -- the last result of the merge is that of the supplement, or else that of the base
  have last : ∀ request, (c.lastResult <|> g.lastResult) = some (.selectorRequest request) →
      request ∈ ctx.classificationResults := by
    intro request found
    simp only [Option.orElse_eq_orElse, Option.orElse_eq_or, Option.or_eq_some_iff] at found
    rcases found with here | ⟨-, there⟩
    · exact supplement.lastResult request here
    · exact base.lastResult request there
  refine ⟨fun request member => ?_, fun request found => ?_, ?_, fun result found => ?_⟩
  · rcases mem_classificationResults_mergeWithBaseContext.mp member with merged | set
    · obtain ⟨c', inside, present⟩ := mem_classificationResults_mergeAll.mp merged
      simp only [List.mem_cons, List.not_mem_nil, or_false, or_self_left] at inside
      rcases inside with rfl | rfl
      · exact base.classificationResults present
      · exact supplement.classificationResults present
    · exact last request set
  · rw [lastResult_mergeWithBaseContext] at found
    exact last request found
  · exact includesReports_mergeWithBaseContext_of_includes base.reports supplement.reports
  · rw [simulationResult_mergeWithBaseContext] at found
    simp only [Option.orElse_eq_orElse, Option.orElse_eq_or, Option.or_eq_some_iff] at found
    rcases found with here | ⟨-, there⟩
    · exact base.simulationResult result here
    · exact supplement.simulationResult result there

/-- A join of other than one context keeps what the global context has found. -/
theorem includesFindings_gathered_base (other : contexts.length ≠ 1) :
    (gathered g contexts).IncludesFindings g := by
  have none := mergedLastResult_eq_none other
  refine ⟨fun request member => ?_, fun request found => ?_, ?_, fun result found => ?_⟩
  · exact (mem_classificationResults_gathered g contexts).mpr
      (Or.inl ⟨g, List.mem_cons_self, member⟩)
  · refine (mem_classificationResults_gathered g contexts).mpr (Or.inr ?_)
    rw [none]
    exact found
  · exact (includesReports_mergeWithBaseContext_iff_of_silent (silent_mergeAll contexts other)).mpr
      (.refl g)
  · exact (simulationResult_gathered_eq_some_iff g contexts).mpr (Or.inl found)

/-- What one by one is found is found by a join that gathers. -/
theorem includesFindings_oneByOne (gathers : Gathers g contexts) :
    (gathered g contexts).IncludesFindings (oneByOne g contexts) := by
  have included := (includes_gathered_iff g contexts).mpr gathers
  by_cases single : contexts.length = 1
  · -- one context is merged in the same way on both paths
    obtain ⟨c, rfl⟩ := List.length_eq_one_iff.mp single
    change (gathered g [c]).IncludesFindings (gathered g [c])
    refine ⟨List.Subset.refl _, fun request found => ?_, .refl _, fun _ => id⟩
    rw [gathered, lastResult_mergeWithBaseContext] at found
    exact mem_classificationResults_mergeWithBaseContext.mpr (Or.inr found)
  · have folded : ∀ (rest : List (ShortTermMemory C P)) base,
        (gathered g contexts).IncludesFindings base → (∀ c ∈ rest, c ∈ contexts) →
          (gathered g contexts).IncludesFindings (oneByOne base rest) := by
      intro rest
      induction rest with
      | nil => exact fun _ found _ => found
      | cons c rest ih =>
        intro base found inside
        rw [List.forall_mem_cons] at inside
        have step := includesFindings_mergeWithBaseContext base found
          (included c inside.1).toIncludesFindings
        exact ih _ step inside.2
    exact folded contexts g (includesFindings_gathered_base g contexts single) fun _ => id

end

theorem mergedLastResult_perm {contexts contexts' : List (ShortTermMemory C P)}
    (same : contexts.Perm contexts') : mergedLastResult contexts' = mergedLastResult contexts := by
  by_cases single : contexts.length = 1
  · obtain ⟨c, rfl⟩ := List.length_eq_one_iff.mp single
    rw [List.perm_singleton.mp same.symm]
  · rw [mergedLastResult_eq_none single, mergedLastResult_eq_none (same.length_eq ▸ single)]

/-- Whether a join loses nothing does not depend on the order of the contexts. -/
theorem Gathers.perm {g : ShortTermMemory C P} {contexts contexts' : List (ShortTermMemory C P)}
    (gathers : Gathers g contexts) (same : contexts.Perm contexts') : Gathers g contexts' := by
  have last := mergedLastResult_perm same
  have members : ∀ {c}, c ∈ contexts' → c ∈ contexts := fun inside => same.mem_iff.mpr inside
  refine ⟨?_, ?_, ?_, ?_, ?_⟩
  · exact fun c member c' member' => gathers.frames c (members member) c' (members member')
  · intro resource again c member
    obtain ⟨final, unseen⟩ := again
    rw [last] at final
    refine gathers.filedAgain resource ⟨final, fun request same' c' inside => ?_⟩ c (members member)
    exact unseen request same' c' ((same.cons g).mem_iff.mp inside)
  · intro c member request found
    rw [last]
    refine (gathers.lastResult c (members member) request found).imp_left ?_
    rintro ⟨c', inside, present⟩
    exact ⟨c', (same.cons g).mem_iff.mp inside, present⟩
  · exact fun several c member => gathers.reports (same.length_eq ▸ several) c (members member)
  · intro c member result found
    rw [← same.length_eq]
    exact gathers.simulationResult c (members member) result found

/-! ### Runs of a join -/

/-- The context a join hands over is the merge of those its actions returned. -/
theorem resolve_mergeReturned (g : ShortTermMemory C P) (contexts : List (ReturnedContext C P)) :
    (ThinkingLifeCycle.mergeReturned g contexts).resolve g =
      mergeAll (contexts.map (ReturnedContext.resolve g)) := by
  match contexts with
  | [] => rfl
  | [_] => rfl
  | _ :: _ :: _ => rfl

section Runs

variable [DecidableEq C] [DecidableEq P]

/-- What `processResources` does first with a resource: it translates it and merges the
context it gets into the global context. -/
def processResource (env : Environment σ C P) (resource : ActionModel) : Program σ C P Unit := do
  let translated ← ThinkingLifeCycle.translate env resource
  let resContext := translated.context.resolve (← get).globalContext
  ThinkingLifeCycle.copyGlobalContext resContext translated.joined

/-- The contexts that the actions of a join returned, when the global context is `g`. -/
def returnedContexts (g : ShortTermMemory C P)
    (results : List (ThinkingLifeCycle.Translated C P)) : List (ShortTermMemory C P) :=
  results.map fun result => result.context.resolve g

/-- The join loses no result of its actions: the global context that it leaves includes the
results of every context they returned, and it has found whatever is found when these
contexts are merged into the global context one by one. -/
def LosesNothing (env : Environment σ C P) (parameters : List ActionModel) (name : String)
    (s : LifeCycle σ C P) : Prop :=
  ∀ results s₁, (ThinkingLifeCycle.translateAll env parameters).run s = .ok results s₁ →
    (∀ c ∈ returnedContexts s₁.globalContext results,
      (finalState ((processResource env (.join parameters name)).run s)).globalContext.Includes c) ∧
    (finalState ((processResource env (.join parameters name)).run s)).globalContext.IncludesFindings
      (oneByOne s₁.globalContext (returnedContexts s₁.globalContext results))

/-- The global context that a join leaves. -/
theorem globalContext_processResource_join {env : Environment σ C P}
    {parameters : List ActionModel} {name : String} {s s₁ : LifeCycle σ C P}
    {results : List (ThinkingLifeCycle.Translated C P)}
    (asked : (ThinkingLifeCycle.translateAll env parameters).run s = .ok results s₁) :
    (finalState ((processResource env (.join parameters name)).run s)).globalContext =
      gathered s₁.globalContext (returnedContexts s₁.globalContext results) := by
  have translated : (ThinkingLifeCycle.translate env (.join parameters name)).run s =
      .ok ⟨ThinkingLifeCycle.mergeReturned s₁.globalContext (results.map (·.context)),
        (results.map (·.context)).map (ReturnedContext.resolve s₁.globalContext) ::
          results.flatMap (·.joined)⟩ s₁ := by
    rw [ThinkingLifeCycle.translate, EStateM.run_bind, asked]
    rfl
  have merged := resolve_mergeReturned s₁.globalContext (results.map (·.context))
  rw [List.map_map] at merged
  rw [processResource, EStateM.run_bind, translated, gathered, returnedContexts]
  exact congrArg (fun c => mergeWithBaseContext s₁.globalContext [s₁.globalContext, c]) merged

/-- A join loses nothing exactly when the contexts its actions return are gathered; the same
contexts, merged into the global context one by one, keep all their knowledge. -/
theorem losesNothing_iff (env : Environment σ C P) (parameters : List ActionModel) (name : String)
    (s : LifeCycle σ C P) :
    (LosesNothing env parameters name s ↔
      ∀ results s₁, (ThinkingLifeCycle.translateAll env parameters).run s = .ok results s₁ →
        Gathers s₁.globalContext (returnedContexts s₁.globalContext results)) ∧
    ∀ results s₁, (ThinkingLifeCycle.translateAll env parameters).run s = .ok results s₁ →
      ∀ c ∈ returnedContexts s₁.globalContext results, c.knowledge ≤
        (oneByOne s₁.globalContext (returnedContexts s₁.globalContext results)).knowledge := by
  refine ⟨⟨fun kept results s₁ asked => ?_, fun gathers results s₁ asked => ?_⟩, ?_⟩
  · have included := (kept results s₁ asked).1
    rw [globalContext_processResource_join asked] at included
    exact (includes_gathered_iff _ _).mp included
  · rw [globalContext_processResource_join asked]
    exact ⟨(includes_gathered_iff _ _).mpr (gathers results s₁ asked),
      includesFindings_oneByOne _ _ (gathers results s₁ asked)⟩
  · intro results s₁ _ c member
    exact knowledge_le_oneByOne _ _ c (List.mem_cons_of_mem _ member)

end Runs

end JoinWay2Think

/-! ### Two actions, one phrase not understood -/

/-- The actors of a join of two critics: the first one returns a phrase it does not
understand, the second one a request. -/
def understandsHalf : Environment Unit ConceptRef PhraseRef where
  goalResourceMap := .empty
  uriName _ := ""
  getReflectiveCritics _ := .ok []
  act name _ world :=
    ({ answer := .ok (.fresh (if name = "DirectInstructionAnalyserCritic"
        then { notUnderstoodPhrases := [7] }
        else ContextHelper.ofLastResult [] (.selectorRequest { uri := 1, resourceURIList := [] }))) },
      world)

theorem join_loses_phrase :
    ¬ JoinWay2Think.LosesNothing understandsHalf
      [.critic "DirectInstructionAnalyserCritic", .critic "ProblemDescriptionAnalyserCritic"]
      "tu.model.knowledge.way2think.JoinWay2ThinkModel" { globalContext := {}, world := () } := by
  intro kept
  have included := (kept _ _ rfl).1 { notUnderstoodPhrases := [7] } (by decide +kernel)
  have present := included.reports.notUnderstoodPhrases List.mem_cons_self
  revert present
  decide +kernel

end ThinkingUnderstanding
