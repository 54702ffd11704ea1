import ThinkingUnderstanding.Spike.RoboticRequests

/-!
# The conversation of a robotic request

Every context of a life cycle has at most one key with the name of the spike resource, that of
the container its request was made into. This holds of the contexts actions answer with, and
merges keep it. So both classifiers see the channel of the request, one of them at most asks
for the spike generator, and the generator is asked once, with the container still in the
context. What a life cycle asks is therefore a fixed list of exchanges.

## Main definitions

* `Clear`, `Carries` — what the contexts of a life cycle hold
* `exchangesOf` — the conversation of a request

## Main results

* `Carries.merge` — merges keep the container
* `follows_lifeCycle` — the life cycle of a request follows its conversation
-/

namespace ThinkingUnderstanding

open Math Semantics ThinkingLifeCycle Training

section Contexts

variable {C P : Type} {objects : Objects} {r : Resource}

/-- Nothing but `r` has the name of the spike resource, and there is nothing to report. -/
structure Clear (objects : Objects) (r : Resource) (ctx : ShortTermMemory C P) : Prop where
  frames : ∀ u x, (u, x) ∈ ctx.frames.entries → objects.name u = spikeResource → u = r.uri ∧ x = r
  lastResult : ∀ x, ctx.lastResult = some x → objects.name x.uri = spikeResource → x = r
  lastError : ctx.lastError = none
  notUnderstoodConcepts : ctx.notUnderstoodConcepts = []
  notUnderstoodPhrases : ctx.notUnderstoodPhrases = []
  resultToReport : ctx.resultToReport = {}
  solutionsToReport : ctx.solutionsToReport = {}

/-- The context holds `r` under its URI, and is clear otherwise. -/
structure Carries (objects : Objects) (r : Resource) (ctx : ShortTermMemory C P) : Prop where
  clear : Clear objects r ctx
  present : (r.uri, r) ∈ ctx.frames.entries

namespace Clear

theorem setLastResult {ctx : ShortTermMemory C P} (clear : Clear objects r ctx)
    {result : Option Resource}
    (named : ∀ x, result = some x → objects.name x.uri = spikeResource → x = r) :
    Clear objects r (ctx.setLastResult result) := by
  have inserted : ∀ x, result = some x → ∀ u y, (u, y) ∈ (ctx.frames.insert x.uri x).entries →
      objects.name u = spikeResource → u = r.uri ∧ y = r := by
    intro x same u y member name
    rcases InsertionMap.mem_entries_insert.mp member with ⟨rfl, rfl⟩ | ⟨-, old⟩
    · have it := named y same name
      exact ⟨congrArg Resource.uri it, it⟩
    · exact clear.frames u y old name
  unfold ShortTermMemory.setLastResult
  split
  · split_ifs
    · exact { clear with lastResult := named }
    · exact { clear with frames := inserted _ rfl, lastResult := named }
  · exact { clear with frames := inserted _ rfl, lastResult := named }
  · exact { clear with lastResult := named }

theorem ofResources_nil : Clear objects r (ContextHelper.ofResources [] : ShortTermMemory C P) where
  frames _ _ member := nomatch member
  lastResult _ none := nomatch none
  lastError := rfl
  notUnderstoodConcepts := rfl
  notUnderstoodPhrases := rfl
  resultToReport := rfl
  solutionsToReport := rfl

/-- A new selector request for the generator is clear. -/
theorem setLastResult_request {request : SelectorRequest}
    (asks : objects.AsksForGenerator request) :
    Clear objects r ((ContextHelper.ofResources [] : ShortTermMemory C P).setLastResult
      (some (.selectorRequest request))) := by
  refine ofResources_nil.setLastResult fun x same name => ?_
  obtain rfl := Option.some.inj same
  have other : selectorRequestSpikeGeneratorURIName = spikeResource := asks.2.symm.trans name
  exact absurd other (by decide)

theorem union {m m' : InsertionMap UriRef Resource}
    (first : ∀ u x, (u, x) ∈ m.entries → objects.name u = spikeResource → u = r.uri ∧ x = r)
    (second : ∀ u x, (u, x) ∈ m'.entries → objects.name u = spikeResource → u = r.uri ∧ x = r) :
    ∀ u x, (u, x) ∈ (m.union m').entries → objects.name u = spikeResource → u = r.uri ∧ x = r := by
  intro u x member
  rcases InsertionMap.mem_entries_union.mp member with new | ⟨-, old⟩
  · exact second u x new
  · exact first u x old

/-- A merge keeps nothing but frames and classification results. -/
theorem merge {first second : ShortTermMemory C P} (clear : Clear objects r first)
    (clear' : Clear objects r second) : Clear objects r (ContextHelper.merge first second) where
  frames := union clear.frames clear'.frames
  lastResult _ none := nomatch none
  lastError := rfl
  notUnderstoodConcepts := rfl
  notUnderstoodPhrases := rfl
  resultToReport := rfl
  solutionsToReport := rfl

theorem mergeAll {contexts : List (ShortTermMemory C P)}
    (clear : ∀ ctx ∈ contexts, Clear objects r ctx) :
    Clear objects r (ContextHelper.mergeAll contexts) := by
  cases contexts with
  | nil => exact ofResources_nil
  | cons first rest =>
    rw [List.forall_mem_cons] at clear
    rw [ContextHelper.mergeAll]
    induction rest generalizing first with
    | nil => exact clear.1
    | cons second rest ih =>
      rw [List.forall_mem_cons] at clear
      exact ih _ ⟨clear.1.merge clear.2.1, clear.2.2⟩

theorem mergeLast {contexts : List (ShortTermMemory C P)}
    (clear : ∀ ctx ∈ contexts, Clear objects r ctx) :
    Clear objects r (ContextHelper.mergeLast contexts) := by
  unfold ContextHelper.mergeLast
  split
  · next last found =>
    have final := clear last (List.mem_of_getLast? found)
    exact { (mergeAll clear).setLastResult final.lastResult with }
  · exact ofResources_nil

/-- The result of a merge is that of the last context, or that of the base. -/
theorem lastResult_orElse {g ctx : ShortTermMemory C P} (clear : Clear objects r g)
    (clear' : Clear objects r ctx) (x : Resource)
    (either : (ctx.lastResult <|> g.lastResult) = some x) :
    objects.name x.uri = spikeResource → x = r := by
  cases own : ctx.lastResult with
  | some y =>
    rw [own] at either
    exact clear'.lastResult x (own.trans either)
  | none =>
    rw [own] at either
    exact clear.lastResult x either

variable [DecidableEq C] [DecidableEq P]

/-- Merging a clear context into the global context. -/
theorem mergeWithBaseContext {g ctx : ShortTermMemory C P} (clear : Clear objects r g)
    (clear' : Clear objects r ctx) :
    Clear objects r (ContextHelper.mergeWithBaseContext g [g, ctx]) := by
  have all : ∀ x ∈ [g, g, ctx], Clear objects r x := by simp [clear, clear']
  have merged := (mergeAll all).setLastResult (clear.lastResult_orElse clear')
  constructor
  case frames => exact merged.frames
  case lastResult => exact merged.lastResult
  case lastError => exact merged.lastError
  case notUnderstoodConcepts =>
    simp [ContextHelper.mergeWithBaseContext, clear.notUnderstoodConcepts,
      clear'.notUnderstoodConcepts]
  case notUnderstoodPhrases =>
    simp [ContextHelper.mergeWithBaseContext, clear.notUnderstoodPhrases,
      clear'.notUnderstoodPhrases]
  case resultToReport =>
    simp [ContextHelper.mergeWithBaseContext, clear.resultToReport, clear'.resultToReport]
    rfl
  case solutionsToReport =>
    simp [ContextHelper.mergeWithBaseContext, clear.solutionsToReport, clear'.solutionsToReport]
    rfl

end Clear

namespace Carries

/-- What is filed under another name, or is `r`, leaves `r` where it is. -/
theorem insert {m : InsertionMap UriRef Resource} (present : (r.uri, r) ∈ m.entries) {x : Resource}
    (name : objects.name r.uri = spikeResource) (named : objects.name x.uri = spikeResource → x = r) :
    (r.uri, r) ∈ (m.insert x.uri x).entries := by
  rw [InsertionMap.mem_entries_insert]
  by_cases same : r.uri = x.uri
  · have it := named (same ▸ name)
    exact Or.inl ⟨same, it.symm⟩
  · exact Or.inr ⟨same, present⟩

theorem setLastResult {ctx : ShortTermMemory C P} (present : (r.uri, r) ∈ ctx.frames.entries)
    (name : objects.name r.uri = spikeResource) {result : Option Resource}
    (named : ∀ x, result = some x → objects.name x.uri = spikeResource → x = r) :
    (r.uri, r) ∈ (ctx.setLastResult result).frames.entries := by
  unfold ShortTermMemory.setLastResult
  split
  · split_ifs
    · exact present
    · exact insert present name (named _ rfl)
  · exact insert present name (named _ rfl)
  · exact present

theorem union {m m' : InsertionMap UriRef Resource} (name : objects.name r.uri = spikeResource)
    (first : (r.uri, r) ∈ m.entries)
    (second : ∀ u x, (u, x) ∈ m'.entries → objects.name u = spikeResource → u = r.uri ∧ x = r) :
    (r.uri, r) ∈ (m.union m').entries := by
  rw [InsertionMap.mem_entries_union]
  by_cases again : r.uri ∈ m'.keys
  · obtain ⟨⟨_, x⟩, member, rfl⟩ := List.mem_map.mp again
    have it := (second _ x member name).2
    exact Or.inl (it ▸ member)
  · exact Or.inr ⟨again, first⟩

variable [DecidableEq C] [DecidableEq P]

/-- Merging a clear context keeps the container. -/
theorem merge {g ctx : ShortTermMemory C P} (carries : Carries objects r g)
    (name : objects.name r.uri = spikeResource) (clear : Clear objects r ctx) :
    Carries objects r (ContextHelper.mergeWithBaseContext g [g, ctx]) where
  clear := carries.clear.mergeWithBaseContext clear
  present := by
    have own := union name carries.present carries.clear.frames
    exact setLastResult (union name own clear.frames) name (carries.clear.lastResult_orElse clear)

/-- Merging the context that the container is in. -/
theorem of_merge {g ctx : ShortTermMemory C P} (clear : Clear objects r g)
    (name : objects.name r.uri = spikeResource) (carries : Carries objects r ctx) :
    Carries objects r (ContextHelper.mergeWithBaseContext g [g, ctx]) where
  clear := clear.mergeWithBaseContext carries.clear
  present := by
    have own : (r.uri, r) ∈ ((g.frames.union g.frames).union ctx.frames).entries :=
      InsertionMap.mem_entries_union.mpr (Or.inl carries.present)
    exact setLastResult own name (clear.lastResult_orElse carries.clear)

omit [DecidableEq C] [DecidableEq P] in
/-- The context that is made of a container. -/
theorem ofLastResult (name : objects.name r.uri = spikeResource) :
    Carries objects r (ContextHelper.ofLastResult [r] r : ShortTermMemory C P) := by
  have present : (r.uri, r) ∈ (ContextHelper.ofResources [r] : ShortTermMemory C P).frames.entries :=
    List.mem_singleton.mpr rfl
  have named : ∀ x, some r = some x → objects.name x.uri = spikeResource → x = r :=
    fun x same _ => (Option.some.inj same).symm
  have clear : Clear objects r (ContextHelper.ofResources [r] : ShortTermMemory C P) := by
    refine { (Clear.ofResources_nil : Clear objects r (ContextHelper.ofResources [])) with
      frames := fun u x member _ => ?_ }
    obtain ⟨rfl, rfl⟩ := Prod.mk.inj (List.mem_singleton.mp member)
    exact ⟨rfl, rfl⟩
  exact ⟨clear.setLastResult named, setLastResult present name named⟩

omit [DecidableEq C] [DecidableEq P] in
/-- The container is found by its name. -/
theorem findByName {g : ShortTermMemory C P} (carries : Carries objects r g)
    (name : objects.name r.uri = spikeResource) : g.findByName objects spikeResource = some r := by
  have key : r.uri ∈ g.frames.keys.filter fun uri => objects.name uri = spikeResource :=
    List.mem_filter.mpr ⟨InsertionMap.mem_keys_of_mem_entries carries.present, decide_eq_true name⟩
  unfold ShortTermMemory.findByName
  cases keys : g.frames.keys.filter fun uri => objects.name uri = spikeResource with
  | nil =>
    rw [keys] at key
    cases key
  | cons uri rest =>
    have first : uri ∈ g.frames.keys.filter fun uri => objects.name uri = spikeResource := by
      rw [keys]
      exact List.mem_cons_self
    obtain ⟨member, named⟩ := List.mem_filter.mp first
    obtain ⟨⟨_, x⟩, entry, rfl⟩ := List.mem_map.mp member
    obtain ⟨same, rfl⟩ := carries.clear.frames _ x entry (of_decide_eq_true named)
    exact InsertionMap.get?_eq_some_iff.mpr entry

omit [DecidableEq C] [DecidableEq P] in
theorem container {g : ShortTermMemory C P} (carries : Carries objects r g)
    {container : RoboticDataContainer} (created : objects.IsContainer container r) :
    g.container objects = some container := by
  rw [ShortTermMemory.container, carries.findByName created.2, Option.bind_some, created.1]

end Carries

end Contexts

/-! ### The conversation of a request -/

section Exchanges

variable {C P : Type} (objects : Objects) (container : RoboticDataContainer)

/-- The context holds the container of the request. -/
def Holds (g : ShortTermMemory C P) : Prop :=
  ∃ r, objects.IsContainer container r ∧ Carries objects r g

/-- The text is made into the container. -/
def understandExchange (input : Resource) : Exchange C P where
  name := "tu.coreservice.action.critic.robotic.UnderstandRequestCritic"
  asked g := g.lastResult = some input
  answered ctx := ∃ r, objects.IsContainer container r ∧ ctx = ContextHelper.ofLastResult [r] r

/-- A classifier looks for its channel. -/
def classifyExchange (name : String) (channel : ℤ) : Exchange C P where
  name := name
  asked := Holds objects container
  answered ctx := ∃ request, objects.AsksForGenerator request ∧
    ctx = if container.channel = channel then
      (ContextHelper.ofResources []).setLastResult (some (.selectorRequest request))
    else ContextHelper.ofResources []

/-- The generator is asked when the channel is that of the classifier. -/
def generateExchanges (channel : ℤ) : List (Exchange C P) :=
  if container.channel = channel then
    [{ name := selectorRequestSpikeGeneratorURI
       asked := Holds objects container
       answered := fun ctx => ctx = ContextHelper.ofResources [] }]
  else []

/-- Both classifiers, each followed by the generator if it asks for it. -/
def classifyExchanges : List (Exchange C P) :=
  (classifyExchange objects container
      "tu.coreservice.action.critic.robotic.classifier.HandSpikeClassifierCritic"
      handChannelNumber :: generateExchanges objects container handChannelNumber) ++
    (classifyExchange objects container
      "tu.coreservice.action.critic.robotic.classifier.DistanceSpikeClassifierCritic"
      distanceChannelNumber :: generateExchanges objects container distanceChannelNumber)

/-- Nothing is to be reported. -/
def manageExchange : Exchange C P where
  name := "tu.coreservice.action.critic.manager.DoNotUnderstandManager"
  asked := Holds objects container
  answered ctx := ctx = ContextHelper.ofResources []

/-- The conversation of the life cycle of a request. -/
def exchangesOf (input : Resource) : List (Exchange C P) :=
  understandExchange objects container input :: classifyExchanges objects container ++
    [manageExchange objects container]

end Exchanges

section LifeCycle

variable {ι C P : Type} [DecidableEq C] [DecidableEq P] (robotics : Robotics ι)

/-- The actions of the goal of a request. -/
def roboticResources : List ActionModel :=
  [.critic "tu.coreservice.action.critic.robotic.UnderstandRequestCritic",
    .critic "tu.coreservice.action.critic.robotic.classifier.HandSpikeClassifierCritic",
    .critic "tu.coreservice.action.critic.robotic.classifier.DistanceSpikeClassifierCritic"]

omit [DecidableEq C] [DecidableEq P] in
theorem getByGoalName_environment :
    (robotics.environment (C := C) (P := P)).getByGoalName "ProcessRoboticDataRequest" =
      some roboticResources := rfl

omit [DecidableEq C] [DecidableEq P] in
/-- A request for the generator starts the generator. -/
theorem select_environment {request : SelectorRequest}
    (asks : robotics.objects.AsksForGenerator request) :
    (robotics.environment (C := C) (P := P)).select request =
      [.way2Think selectorRequestSpikeGeneratorURI] := by
  have registered : (robotics.environment (C := C) (P := P)).stringResourcesMap.get?
      selectorRequestSpikeGeneratorURI = some (.way2Think selectorRequestSpikeGeneratorURI) := rfl
  obtain ⟨names, -⟩ := asks
  obtain ⟨uri, rest, same, named, none⟩ := List.map_eq_cons_iff.mp names
  obtain rfl := List.map_eq_nil_iff.mp none
  rw [Environment.select, same, List.filterMap_cons_some]
  · rfl
  · change (robotics.environment (C := C) (P := P)).stringResourcesMap.get? (robotics.objects.name uri) = _
    rw [named, registered]

variable {robotics} {container : RoboticDataContainer} {r : Resource}
  (created : robotics.objects.IsContainer container r)

include created

/-- An empty answer is merged. -/
theorem carries_of_merge_nil {g : ShortTermMemory C P} (carries : Carries robotics.objects r g) :
    Carries robotics.objects r
      (ContextHelper.mergeWithBaseContext g [g, ContextHelper.ofResources []]) :=
  carries.merge created.2 Clear.ofResources_nil

/-- The answer of an action that is not followed up. -/
theorem follows_idle {process : SelectorRequest → Program (Script C P) C P (List (ShortTermMemory C P))}
    {reflectiveFlag : Bool} {resource : ActionModel} (single : resource.Single) {e : Exchange C P}
    (named : e.name = resource.name) (asked : ∀ g, Holds robotics.objects container g → e.asked g)
    (answered : ∀ ctx, e.answered ctx → ctx = ContextHelper.ofResources []) :
    Follows (processResource robotics.environment process reflectiveFlag resource)
      (Carries robotics.objects r) [e] fun ctxs g =>
        Carries robotics.objects r g ∧ ∀ ctx ∈ ctxs, Clear robotics.objects r ctx := by
  refine follows_processResource rfl single named (fun g carries => asked g ⟨r, created, carries⟩)
    fun ctx known => ?_
  obtain rfl := answered ctx known
  have quiet : (if reflectiveFlag then
      (ContextHelper.ofResources [] : ShortTermMemory C P).lastReflectiveResult
        else (ContextHelper.ofResources [] : ShortTermMemory C P).lastResult) = none := by
    cases reflectiveFlag <;> rfl
  rw [quiet]
  refine follows_pure fun merged pre => ?_
  obtain ⟨g, carries, rfl⟩ := pre
  exact ⟨carries_of_merge_nil created carries, by simp [Clear.ofResources_nil]⟩

/-- The conversation of a selector request for the generator. -/
theorem follows_generate (depth : ℕ) {request : SelectorRequest}
    (asks : robotics.objects.AsksForGenerator request) :
    Follows (processSelectorRequest robotics.environment (depth + 1) request)
      (Carries robotics.objects r)
      [{ name := selectorRequestSpikeGeneratorURI
         asked := Holds robotics.objects container
         answered := fun ctx : ShortTermMemory C P => ctx = ContextHelper.ofResources [] }]
      fun ctxs g => Carries robotics.objects r g ∧ ∀ ctx ∈ ctxs, Clear robotics.objects r ctx := by
  rw [processSelectorRequest, select_environment robotics asks]
  have turn : Follows (processResource robotics.environment
      (processSelectorRequest robotics.environment depth) true
        (.way2Think selectorRequestSpikeGeneratorURI)) (Carries robotics.objects r)
      [{ name := selectorRequestSpikeGeneratorURI
         asked := Holds robotics.objects container
         answered := fun ctx : ShortTermMemory C P => ctx = ContextHelper.ofResources [] }]
      fun ctxs g => Carries robotics.objects r g ∧ ∀ ctx ∈ ctxs, Clear robotics.objects r ctx :=
    follows_idle created (ActionModel.single_way2Think _) rfl (fun _ => id) fun _ => id
  exact follows_processResourcesWith (follows_turns (.cons turn .nil))

/-- A classifier, and the generator if it asks for it. -/
theorem follows_classify (depth : ℕ) (name : String) (channel : ℤ) :
    Follows (processResource robotics.environment
        (processSelectorRequest robotics.environment (depth + 1)) false (.critic name))
      (Carries robotics.objects r)
      (classifyExchange robotics.objects container name channel ::
        generateExchanges robotics.objects container channel)
      fun ctxs (g : ShortTermMemory C P) =>
        Carries robotics.objects r g ∧ ∀ ctx ∈ ctxs, Clear robotics.objects r ctx := by
  refine follows_processResource rfl (ActionModel.single_critic name)
    (e := classifyExchange robotics.objects container name channel) rfl
    (fun g carries => ⟨r, created, carries⟩) fun ctx answered => ?_
  obtain ⟨request, asks, rfl⟩ := answered
  unfold generateExchanges
  by_cases here : container.channel = channel
  · rw [if_pos here, if_pos here]
    have follows := follows_generate (C := C) (P := P) created depth asks
    refine follows.imp ?_ fun _ _ => id
    rintro merged ⟨g, carries, rfl⟩
    exact carries.merge created.2 (Clear.setLastResult_request asks)
  · rw [if_neg here, if_neg here]
    refine follows_pure fun merged pre => ?_
    obtain ⟨g, carries, rfl⟩ := pre
    exact ⟨carries_of_merge_nil created carries, by simp [Clear.ofResources_nil]⟩

omit created in
/-- The global context before the text is understood. -/
structure Started (objects : Objects) (input : Resource) (g : ShortTermMemory C P) : Prop where
  clear : ∀ r, Clear objects r g
  lastResult : g.lastResult = some input

omit created in
/-- The text is understood, and the container is merged into the global context. -/
theorem follows_understand (robotics : Robotics ι) (container : RoboticDataContainer)
    (process : SelectorRequest → Program (Script C P) C P (List (ShortTermMemory C P)))
    (input : Resource) :
    Follows (processResource robotics.environment process false
        (.critic "tu.coreservice.action.critic.robotic.UnderstandRequestCritic"))
      (Started robotics.objects input) [understandExchange robotics.objects container input]
      fun ctxs g => ∃ r, robotics.objects.IsContainer container r ∧
        (∀ ctx ∈ ctxs, Clear robotics.objects r ctx) ∧ Carries robotics.objects r g := by
  refine follows_processResource rfl (ActionModel.single_critic _)
    (e := understandExchange robotics.objects container input) rfl
    (fun g started => started.lastResult) fun ctx answered => ?_
  obtain ⟨r, created, rfl⟩ := answered
  have carries : Carries robotics.objects r (ContextHelper.ofLastResult [r] r : ShortTermMemory C P) :=
    Carries.ofLastResult created.2
  have quiet : followUp process (ContextHelper.ofLastResult [r] r)
      (ContextHelper.ofLastResult [r] r : ShortTermMemory C P).lastResult =
        pure [ContextHelper.ofLastResult [r] r] := by
    cases r with
    | other object uri => rfl
    | selectorRequest request => exact nomatch created.1
    | conceptNetwork network uri => exact nomatch created.1
  rw [if_neg Bool.false_ne_true, quiet]
  refine follows_pure fun merged pre => ?_
  obtain ⟨g, started, rfl⟩ := pre
  exact ⟨r, created, by simp [carries.clear], Carries.of_merge (started.clear r) created.2 carries⟩

omit created in
/-- The conversation of the goal, up to the critics that look for something to report. -/
theorem follows_roboticResources (depth : ℕ) (input : Resource) :
    Follows (processResources robotics.environment (depth + 1) roboticResources)
      (Started robotics.objects input)
      (understandExchange robotics.objects container input ::
        classifyExchanges robotics.objects container)
      fun ctxs (g : ShortTermMemory C P) => ∃ r, robotics.objects.IsContainer container r ∧
        (∀ ctx ∈ ctxs, Clear robotics.objects r ctx) ∧ Carries robotics.objects r g := by
  refine follows_processResourcesWith ?_
  change Follows _ _ ([_] ++ _) _
  refine follows_mapM_cons (follows_understand robotics container _ input) fun ctxs => ?_
  refine follows_of_exists fun r => follows_of_known fun created => follows_of_known fun clear => ?_
  have hand := follows_classify (C := C) (P := P) created depth
    "tu.coreservice.action.critic.robotic.classifier.HandSpikeClassifierCritic" handChannelNumber
  have distance := follows_classify (C := C) (P := P) created depth
    "tu.coreservice.action.critic.robotic.classifier.DistanceSpikeClassifierCritic"
    distanceChannelNumber
  have rest := follows_turns (.cons hand (.cons distance .nil))
  rw [List.flatten_cons, List.flatten_cons, List.flatten_nil, List.append_nil] at rest
  refine rest.imp (fun g => id) fun lists g known => ⟨r, created, fun ctx member => ?_, known.1⟩
  rcases List.mem_append.mp member with first | later
  · exact clear ctx first
  · exact known.2 ctx later

omit created in
/-- Contexts that are clear are merged. -/
theorem follows_mergeContexts {ctxs : List (ShortTermMemory C P)}
    (created : robotics.objects.IsContainer container r)
    (clear : ∀ ctx ∈ ctxs, Clear robotics.objects r ctx) :
    Follows (mergeContexts ctxs) (Carries robotics.objects r) [] fun _ g =>
      Carries robotics.objects r g ∧ g.nextGoal = none := by
  refine (follows_copyGlobalContext _ []).imp (fun g => id) fun _ merged pre => ?_
  obtain ⟨g, carries, rfl⟩ := pre
  exact ⟨carries.merge created.2 (Clear.mergeLast clear), nextGoal_mergeWithBaseContext g _⟩

/-- The critics that look for something to report find nothing. -/
theorem follows_reflectiveCritics (depth : ℕ) :
    Follows (processReflectiveCritics robotics.environment depth) (Carries robotics.objects r)
      [manageExchange robotics.objects container] fun ctxs (g : ShortTermMemory C P) =>
        Carries robotics.objects r g ∧ ∀ ctx ∈ ctxs, Clear robotics.objects r ctx := by
  have turn : Follows (processResource robotics.environment
      (processSelectorRequest robotics.environment depth) true
        (.critic "tu.coreservice.action.critic.manager.DoNotUnderstandManager"))
      (Carries robotics.objects r) [manageExchange robotics.objects container]
      fun ctxs (g : ShortTermMemory C P) =>
        Carries robotics.objects r g ∧ ∀ ctx ∈ ctxs, Clear robotics.objects r ctx :=
    follows_idle created (ActionModel.single_critic _) rfl (fun _ => id) fun _ => id
  exact follows_get_bind fun s _ => follows_processResourcesWith (follows_turns (.cons turn .nil))

omit created in
/-- The conversation of the goal of a request. -/
theorem follows_runGoal (robotics : Robotics ι) (container : RoboticDataContainer) (depth : ℕ)
    (goal : Goal) (named : goal.name = "ProcessRoboticDataRequest") (input : Resource) :
    Follows (runGoal robotics.environment (depth + 1) goal) (Started robotics.objects input)
      (exchangesOf robotics.objects container input)
      fun _ (g : ShortTermMemory C P) => g.nextGoal = none := by
  unfold runGoal
  rw [named, getByGoalName_environment]
  refine (follows_roboticResources depth input).bind fun ctxs => ?_
  refine follows_of_exists fun r => follows_of_known fun created => follows_of_known fun clear => ?_
  change Follows _ _ ([] ++ [_]) _
  refine (follows_mergeContexts created clear).bind fun _ => ?_
  rw [← List.append_nil [_]]
  refine ((follows_reflectiveCritics created _).imp (fun g known => known.1)
    fun ctxs g => And.comm.mp).bind fun ctxs => follows_of_known fun clear => ?_
  exact (follows_mergeContexts created clear).imp (fun g => id) fun _ g => And.right

omit created [DecidableEq C] [DecidableEq P] in
/-- The models are loaded; the input is the last result. -/
theorem follows_initializeGlobalContext (request : RoboticDataRequest)
    (name : robotics.objects.name request.inputResource.uri ≠ spikeResource) :
    Follows (initializeGlobalContext (Robotics.memory request)
        ⟨request.inputResource, request.domainName⟩) (fun _ => True) []
      fun _ (g : ShortTermMemory C P) => Started robotics.objects request.inputResource g := by
  refine follows_of_run fun s _ => ⟨(), _, rfl, rfl, fun r => ?_, ?_⟩
  · have input : Clear robotics.objects r
        (ContextHelper.ofLastResult [request.inputResource] request.inputResource :
          ShortTermMemory C P) := by
      refine Clear.setLastResult ?_ fun x same named => ?_
      · refine { (Clear.ofResources_nil : Clear robotics.objects r (ContextHelper.ofResources [])) with
          frames := fun u x member named => ?_ }
        obtain ⟨rfl, rfl⟩ := Prod.mk.inj (List.mem_singleton.mp member)
        exact absurd named name
      · exact absurd (Option.some.inj same ▸ named) name
    exact { input with }
  · exact ShortTermMemory.lastResult_setLastResult _ _

omit created in
/-- The conversation of a request. -/
theorem follows_lifeCycle (container : RoboticDataContainer) (i : ι)
    (name : robotics.objects.name (robotics.requests i).inputResource.uri ≠ spikeResource) :
    Follows (robotics.lifeCycle (C := C) (P := P) i) (fun _ => True)
      (exchangesOf robotics.objects container (robotics.requests i).inputResource)
      fun _ _ => True := by
  have goal := follows_runGoal (C := C) (P := P) robotics container robotics.depth
    (KBAdapter.goal 16 "ProcessRoboticDataRequest") rfl
    (robotics.requests i).inputResource
  have loop : Follows (runGoals robotics.environment (robotics.depth + 1) (robotics.rounds + 1)
      RequestClass.roboticDataRequest.targetGoals)
      (Started robotics.objects (robotics.requests i).inputResource)
      (exchangesOf robotics.objects container (robotics.requests i).inputResource ++ [])
      fun _ (_ : ShortTermMemory C P) => True := by
    rw [runGoals, runGoalsLoop]
    refine goal.bind fun _ => follows_get_bind fun s silent => ?_
    rw [GoalManager.nextGoal, silent]
    cases robotics.rounds with
    | zero => exact follows_pure fun _ _ => trivial
    | succ rounds => exact follows_pure fun _ _ => trivial
  have last : Follows (get >>= fun s => pure s.globalContext) (fun _ : ShortTermMemory C P => True) []
      fun (_ : ShortTermMemory C P) _ => True :=
    follows_get_bind fun s _ => follows_pure fun _ _ => trivial
  have returned := loop.bind fun _ => last
  have whole := (follows_initializeGlobalContext (C := C) (P := P) _ name).bind fun _ => returned
  rw [List.append_nil, List.append_nil, List.nil_append] at whole
  exact whole

end LifeCycle

end ThinkingUnderstanding
