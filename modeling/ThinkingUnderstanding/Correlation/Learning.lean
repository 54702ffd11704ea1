import ThinkingUnderstanding.Correlation.CorrelationWay2Think

/-!
# What is learned from clarifications and trainings

A clarification is asked for as long as the simulation result has concepts that the model does
not know. A training maps what it is told to the model, and what the maps are made of is committed
to the model. One of them follows another, and the model that one leaves is the model of the
next.

Whatever the clarifications say and in whichever order they come, a concept that one of them names
is known from then on, and the model grows by nothing else but such concepts and new parents. And
whatever is taught, a training puts no island into the model: each node that it adds is connected
with one that was there.

## Main definitions

* `clarifyAll` — clarifications, each with the model that the one before has left
* `Learned` — what is known after them
* `Trainings` — trainings, with what else makes the graph grow
* `Heap.Connected` — concepts are connected by links

## Main results

* `learned_of_run` — a run of clarifications
* `taught_of_trainings` — a run of trainings
-/

namespace ThinkingUnderstanding

open Math Semantics Correlation

namespace CorrelationWay2Think

variable (defaults : Defaults) (stack : ℕ) (narrativeOf : Resource → Option AnnotatedNarrative)

/-- Clarifications one after another, each with the model that has been left. -/
def clarifyAll : NetworkRef → List Context → EStateM Failure Heap NetworkRef
  | model, [] => return model
  | model, context :: rest => do
      let returned ← apply defaults stack narrativeOf { context with simulationModel := some model }
      clarifyAll (returned.simulationModel.getD model) rest

/-- The narrative of the context names the concept. -/
def Clarifies (heap : Heap) (context : Context) (c : ConceptRef) : Prop :=
  ∃ narrative, narrativeIn narrativeOf heap context = some narrative ∧
    heap.getNodeByName (heap.conceptNetworkOf narrative) (heap.uriOf c).name ≠ []

/-- The frames of a context exist, and so do the concepts of its narrative. -/
structure Present (heap : Heap) (context : Context) : Prop where
  frames : ∀ uri ∈ context.frames.keys, uri < heap.uris.size
  concepts : ∀ narrative, narrativeIn narrativeOf heap context = some narrative →
    ∀ c ∈ heap.conceptsOfNarrative narrative, c < heap.concepts.size

/-- A network and its nodes exist. -/
structure HasModel (heap : Heap) (model : NetworkRef) : Prop where
  exists_ : model < heap.networks.size
  nodes : ∀ n ∈ (heap.network model).nodes, n < heap.concepts.size

/-- What is known after clarifications of the concepts of `result`: the model has grown by
concepts that were not known and are named by a clarification, and by new ones; and what is still
not known is named by none. -/
structure Learned (heap : Heap) (result model : NetworkRef) (contexts : List Context) (t : Heap)
    (model' : NetworkRef) : Prop where
  grown : (heap.network model).nodes <+: (t.network model').nodes
  nodes : ∀ n ∈ (t.network model').nodes, n ∈ (heap.network model).nodes ∨
    heap.concepts.size ≤ n ∨
      n ∈ unknown heap result model ∧ ∃ context ∈ contexts, Clarifies narrativeOf heap context n
  unknown : ∀ c ∈ unknown t result model', c ∈ unknown heap result model ∧
    ∀ context ∈ contexts, ¬ Clarifies narrativeOf heap context c

variable {defaults stack narrativeOf} {heap t : Heap} {context returned : Context}
  {contexts : List Context} {result model model' : NetworkRef} {c : ConceptRef}

/-! ### Contexts of a graph that grows -/

theorem narrativeIn_eq (preserved : heap.Preserved t) (present : Present narrativeOf heap context) :
    narrativeIn narrativeOf t context = narrativeIn narrativeOf heap context := by
  have same : (context.frames.keys.filter fun uri =>
        (objectsOf t).name uri = linkParserResultName) =
      context.frames.keys.filter fun uri => (objectsOf heap).name uri = linkParserResultName := by
    apply List.filter_congr
    intro uri member
    have name : (objectsOf t).name uri = (objectsOf heap).name uri :=
      congrArg KnowledgeURI.name (preserved.uris.get uri (present.frames uri member))
    rw [name]
  rw [narrativeIn, ShortTermMemory.findByName, same, narrativeIn, ShortTermMemory.findByName]

theorem Present.of_preserved (present : Present narrativeOf heap context)
    (preserved : heap.Preserved t) : Present narrativeOf t context where
  frames uri member := (present.frames uri member).trans_le preserved.uris.size
  concepts narrative found c member := by
    rw [narrativeIn_eq preserved present] at found
    rw [preserved.conceptsOfNarrative_eq] at member
    exact (present.concepts narrative found c member).trans_le preserved.concepts_le

/-- Nodes are found by name as before. -/
theorem getNodeByName_eq (preserved : heap.Preserved t) (wf : heap.WellFormed)
    {network : ConceptNetwork} (inside : ∀ n ∈ network.nodes, n < heap.concepts.size)
    (name : String) : t.getNodeByName network name = heap.getNodeByName network name := by
  apply List.filter_congr
  intro n member
  rw [preserved.uriOf_eq wf (inside n member)]

theorem clarifies_iff (preserved : heap.Preserved t) (wf : heap.WellFormed)
    (present : Present narrativeOf heap context) (inside : c < heap.concepts.size) :
    Clarifies narrativeOf t context c ↔ Clarifies narrativeOf heap context c := by
  rw [Clarifies, Clarifies, narrativeIn_eq preserved present]
  refine exists_congr fun narrative => and_congr_right fun found => ?_
  have network : t.conceptNetworkOf narrative = heap.conceptNetworkOf narrative := by
    rw [Heap.conceptNetworkOf, preserved.conceptsOfNarrative_eq, Heap.conceptNetworkOf]
  rw [network, preserved.uriOf_eq wf inside,
    getNodeByName_eq preserved wf (present.concepts narrative found)]

/-! ### One call -/

theorem mem_unknown_iff : c ∈ unknown heap result model ↔ c ∈ (heap.network result).nodes ∧
    heap.getNodeByName (heap.network model) (heap.uriOf c).name = [] := by
  rw [unknown, Heap.filterConceptListNegative, List.mem_filter, decide_eq_true_eq,
    Nat.lt_one_iff, List.length_eq_zero_iff]

/-- A concept is known when a node has its name. -/
theorem getNodeByName_ne_nil (heap : Heap) {network : ConceptNetwork} (node : c ∈ network.nodes) :
    heap.getNodeByName network (heap.uriOf c).name ≠ [] :=
  List.ne_nil_of_mem (List.mem_filter.mpr ⟨node, decide_eq_true rfl⟩)

/-- A concept that is not known by its name is not found in the target. -/
theorem findInTarget_eq_none {network : ConceptNetwork}
    (notKnown : heap.getNodeByName network (heap.uriOf c).name = []) :
    findInTarget heap c network = none := by
  rw [← Option.not_isSome_iff_eq_none]
  intro found
  obtain ⟨n, member⟩ := List.exists_mem_of_length_pos (length_getNodeByURI_pos found)
  obtain ⟨node, uri⟩ := List.mem_filter.mp member
  have same : heap.uriOf n = heap.uriOf c := congrArg heap.uri (of_decide_eq_true uri)
  have named := getNodeByName_ne_nil heap node
  rw [same] at named
  exact named notKnown

/-- What a call finds, and what it returns. -/
theorem exists_correlated (filed : heap.Filed) (table : PlainTable defaults heap)
    (present : Present narrativeOf heap context)
    (nodes : ∀ result, context.simulationResult = some result →
      ∀ c ∈ (heap.network result).nodes, c < heap.concepts.size)
    (run : (apply defaults stack narrativeOf context).run heap = .ok returned t) :
    ∃ narrative model, narrativeIn narrativeOf heap context = some narrative ∧
      context.simulationModel = some model ∧ ∃ tr s,
        Correlated defaults heap (clarified heap context narrative model) (heap.network model) tr
          s ∧
        Reports (knownNodes heap context) (heap.network model) tr s returned t := by
  obtain ⟨narrative, model, inContext, hasModel, -, name, tr, s, processed, reported⟩ :=
    run_apply_eq_ok run
  have inside : ∀ c ∈ clarified heap context narrative model, c < heap.concepts.size := by
    intro c member
    rw [clarified] at member
    cases hasResult : context.simulationResult with
    | some result =>
      rw [hasResult] at member
      exact nodes result hasResult c (mem_unknown_iff.mp (List.mem_of_mem_filter member)).1
    | none =>
      rw [hasResult] at member
      exact present.concepts narrative inContext c member
  have correlated := correlated_of_run filed table inside processed
  obtain ⟨returned', t', run', reports⟩ :=
    run_outputContext correlated.filed (knownNodes heap context) (heap.network model) name tr
  rw [reported] at run'
  cases run'
  exact ⟨narrative, model, inContext, hasModel, tr, s, correlated, reports⟩

theorem mem_clarified_iff (asks : context.simulationResult = some result)
    {narrative : AnnotatedNarrative} :
    c ∈ clarified heap context narrative model ↔ c ∈ unknown heap result model ∧
      heap.getNodeByName (heap.conceptNetworkOf narrative) (heap.uriOf c).name ≠ [] := by
  have same : clarified heap context narrative model =
      heap.filterConceptList (unknown heap result model) (heap.conceptNetworkOf narrative) := by
    rw [clarified, asks]
  rw [same, Heap.filterConceptList, List.mem_filter, decide_eq_true_eq, gt_iff_lt,
    List.length_pos_iff]

/-- The next model, whether it is the same one or not: it exists, and has the domain concepts
behind the nodes of the one before. -/
theorem nodes_next (hasModel : HasModel heap model) (preserved : heap.Preserved t)
    {known : List ConceptRef} {tr : TripleResult} {s : Heap}
    (reports : Reports known (heap.network model) tr s returned t) :
    returned.simulationModel.getD model < t.networks.size ∧
      (t.network (returned.simulationModel.getD model)).nodes =
        (heap.network model).nodes ++ tr.2.1 := by
  by_cases none : tr.2.1 = []
  · rw [reports.noModel none, Option.getD_none, none, List.append_nil]
    exact ⟨hasModel.exists_.trans_le preserved.networks.size,
      congrArg ConceptNetwork.nodes (preserved.networks.get model hasModel.exists_)⟩
  · obtain ⟨m, some, inside, nodes⟩ := reports.newModel none
    rw [some, Option.getD_some]
    exact ⟨inside, nodes⟩

/-- The domain concepts are new parents, and the concepts that the narrative names. -/
theorem new_or_clarified (asks : context.simulationResult = some result)
    {narrative : AnnotatedNarrative}
    (inContext : narrativeIn narrativeOf heap context = some narrative) {tr : TripleResult}
    {s : Heap} (correlated : Correlated defaults heap (clarified heap context narrative model)
      (heap.network model) tr s) {n : ConceptRef} (member : n ∈ tr.2.1) :
    heap.concepts.size ≤ n ∧ n < s.concepts.size ∨
      n ∈ unknown heap result model ∧ Clarifies narrativeOf heap context n := by
  obtain ⟨parents, added, new⟩ := correlated.domainConcepts
  rw [added, List.mem_append] at member
  rcases member with parent | instance'
  · exact Or.inl (new n parent)
  · obtain ⟨notKnown, name⟩ := (mem_clarified_iff asks).mp (List.mem_of_mem_filter instance')
    exact Or.inr ⟨notKnown, narrative, inContext, name⟩

/-- What is still not known was not known before, and the narrative does not name it. -/
theorem not_clarified_of_unknown (filed : heap.Filed) (hasModel : HasModel heap model)
    (hasResult : HasModel heap result) (asks : context.simulationResult = some result)
    {narrative : AnnotatedNarrative}
    (inContext : narrativeIn narrativeOf heap context = some narrative) {tr : TripleResult}
    {s : Heap} (correlated : Correlated defaults heap (clarified heap context narrative model)
      (heap.network model) tr s) (preserved : heap.Preserved t)
    (nodes : (t.network model').nodes = (heap.network model).nodes ++ tr.2.1)
    (member : c ∈ unknown t result model') :
    c ∈ unknown heap result model ∧ ¬ Clarifies narrativeOf heap context c := by
  have wf := filed.wellFormed
  obtain ⟨node, notKnown⟩ := mem_unknown_iff.mp member
  rw [show (t.network result).nodes = (heap.network result).nodes from
    congrArg ConceptNetwork.nodes (preserved.networks.get result hasResult.exists_)] at node
  have inside := hasResult.nodes c node
  -- a node of the next model with its name would make it known
  have other : ∀ n ∈ (heap.network model).nodes ++ tr.2.1,
      reduceInstanceIdentifier (t.uriOf n).name ≠ reduceInstanceIdentifier (heap.uriOf c).name := by
    intro n among same
    rw [← nodes] at among
    rw [preserved.uriOf_eq wf inside, Heap.getNodeByName, List.filter_eq_nil_iff] at notKnown
    exact notKnown n among (decide_eq_true same)
  have before : c ∈ unknown heap result model := by
    refine mem_unknown_iff.mpr ⟨node, List.filter_eq_nil_iff.mpr fun n old => ?_⟩
    rw [← preserved.uriOf_eq wf (hasModel.nodes n old)]
    exact fun same => other n (List.mem_append_left _ old) (of_decide_eq_true same)
  refine ⟨before, ?_⟩
  rintro ⟨narrative', inContext', name⟩
  rw [inContext] at inContext'
  cases inContext'
  obtain ⟨parents, added, -⟩ := correlated.domainConcepts
  have here : c ∈ tr.2.1 := by
    rw [added]
    refine List.mem_append_right _ (List.mem_filter.mpr
      ⟨(mem_clarified_iff asks).mpr ⟨before, name⟩, ?_⟩)
    rw [findInTarget_eq_none (mem_unknown_iff.mp before).2]
    rfl
  exact other c (List.mem_append_right _ here) (by rw [preserved.uriOf_eq wf inside])

/-- What one clarification leaves: the model of the next one, and what is known then. -/
theorem learned_of_apply (filed : heap.Filed) (table : PlainTable defaults heap)
    (hasModel : HasModel heap model) (hasResult : HasModel heap result)
    (present : Present narrativeOf heap context) (asks : context.simulationResult = some result)
    (run : (apply defaults stack narrativeOf { context with simulationModel := some model }).run
      heap = .ok returned t) :
    t.Filed ∧ PlainTable defaults t ∧ heap.Preserved t ∧
      HasModel t (returned.simulationModel.getD model) ∧
        Learned narrativeOf heap result model [context] t
          (returned.simulationModel.getD model) := by
  have present' : Present narrativeOf heap { context with simulationModel := some model } :=
    ⟨present.frames, present.concepts⟩
  obtain ⟨narrative, _, inContext, same, tr, s, correlated, reports⟩ :=
    exists_correlated filed table present' (fun r has => by
      cases asks.symm.trans has
      exact hasResult.nodes) run
  cases same
  have preserved : heap.Preserved t := correlated.preserved.trans reports.noted.preserved
  obtain ⟨exists_, nodes⟩ := nodes_next hasModel preserved reports
  have domain : ∀ n ∈ tr.2.1, heap.concepts.size ≤ n ∧ n < s.concepts.size ∨
      n ∈ unknown heap result model ∧ Clarifies narrativeOf heap context n :=
    fun n member => new_or_clarified asks inContext correlated member
  refine ⟨reports.noted.filed, reports.noted.table defaults correlated.table, preserved,
    ⟨exists_, fun n member => ?_⟩, ⟨?_, fun n member => ?_, fun c member => ?_⟩⟩
  · rw [nodes, List.mem_append] at member
    rcases member with old | added
    · exact (hasModel.nodes n old).trans_le preserved.concepts_le
    · rcases domain n added with ⟨-, below⟩ | ⟨notKnown, -⟩
      · rwa [reports.noted.concepts]
      · exact (hasResult.nodes n (mem_unknown_iff.mp notKnown).1).trans_le preserved.concepts_le
  · rw [nodes]
    exact List.prefix_append _ _
  · rw [nodes, List.mem_append] at member
    refine member.imp_right fun added => (domain n added).imp And.left ?_
    exact fun ⟨notKnown, clarifies⟩ =>
      ⟨notKnown, context, List.mem_singleton_self context, clarifies⟩
  · obtain ⟨before, silent⟩ := not_clarified_of_unknown filed hasModel hasResult asks inContext
      correlated preserved nodes member
    exact ⟨before, List.forall_mem_singleton.mpr silent⟩

/-! ### Clarifications one after another -/

theorem Learned.append {first : Context} {rest : List Context} {m : Heap} {next : NetworkRef}
    (one : Learned narrativeOf heap result model [first] m next)
    (others : Learned narrativeOf m result next rest t model') (preserved : heap.Preserved m)
    (wf : heap.WellFormed) (hasResult : HasModel heap result)
    (present : ∀ context ∈ rest, Present narrativeOf heap context) :
    Learned narrativeOf heap result model (first :: rest) t model' where
  grown := one.grown.trans others.grown
  nodes n member := by
    rcases others.nodes n member with old | above | ⟨notKnown, context, inside, clarifies⟩
    · refine (one.nodes n old).imp_right (Or.imp_right (And.imp_right ?_))
      rintro ⟨context, same, clarifies⟩
      exact ⟨first, List.mem_cons_self, List.mem_singleton.mp same ▸ clarifies⟩
    · exact Or.inr (Or.inl (preserved.concepts_le.trans above))
    · obtain ⟨before, -⟩ := one.unknown n notKnown
      rw [clarifies_iff preserved wf (present context inside)
        (hasResult.nodes n (mem_unknown_iff.mp before).1)] at clarifies
      exact Or.inr (Or.inr ⟨before, context, List.mem_cons_of_mem _ inside, clarifies⟩)
  unknown c member := by
    obtain ⟨notKnown, later⟩ := others.unknown c member
    obtain ⟨before, now⟩ := one.unknown c notKnown
    refine ⟨before, List.forall_mem_cons.mpr ⟨now first (List.mem_singleton_self first), ?_⟩⟩
    intro context inside clarifies
    refine later context inside ((clarifies_iff preserved wf (present context inside) ?_).mpr
      clarifies)
    exact hasResult.nodes c (mem_unknown_iff.mp before).1

/-- Whatever the clarifications are and in whichever order they come, the model grows by nothing
but concepts of the result that it did not know and that a clarification names, and by new ones;
and it knows every concept that a clarification names. -/
theorem learned_of_run (defaults : Defaults) (stack : ℕ)
    (narrativeOf : Resource → Option AnnotatedNarrative) (heap t : Heap)
    (result model model' : NetworkRef) (contexts : List Context) (filed : heap.Filed)
    (table : PlainTable defaults heap) (hasModel : HasModel heap model)
    (hasResult : HasModel heap result)
    (present : ∀ context ∈ contexts, Present narrativeOf heap context)
    (asks : ∀ context ∈ contexts, context.simulationResult = some result)
    (run : (clarifyAll defaults stack narrativeOf model contexts).run heap = .ok model' t) :
    Learned narrativeOf heap result model contexts t model' := by
  -- on the contexts that remain, from the graph and the model that have been left
  induction contexts generalizing heap model with
  | nil =>
    cases run
    exact ⟨List.prefix_refl _, fun n member => Or.inl member,
      fun c member => ⟨member, List.forall_mem_nil _⟩⟩
  | cons first rest ih =>
    obtain ⟨returned, m, applied, runs⟩ := run_bind_eq_ok_iff.mp run
    obtain ⟨presentFirst, presentRest⟩ := List.forall_mem_cons.mp present
    obtain ⟨asksFirst, asksRest⟩ := List.forall_mem_cons.mp asks
    obtain ⟨filed', table', preserved, hasNext, one⟩ :=
      learned_of_apply filed table hasModel hasResult presentFirst asksFirst applied
    have kept : HasModel m result := by
      refine ⟨hasResult.exists_.trans_le preserved.networks.size, fun n member => ?_⟩
      rw [show (m.network result).nodes = (heap.network result).nodes from
        congrArg ConceptNetwork.nodes (preserved.networks.get result hasResult.exists_)] at member
      exact (hasResult.nodes n member).trans_le preserved.concepts_le
    have others := ih m (returned.simulationModel.getD model) filed' table' hasNext kept
      (fun context inside => (presentRest context inside).of_preserved preserved) asksRest runs
    exact one.append others preserved filed.wellFormed hasResult presentRest

/-- An instance of a browser, a phrase for it, a network with it, and an empty one. -/
def browserHeap : Heap :=
  let built := Heap.constructed {} {} { value := "browser", name := "browser" }
    { name := "browser", uid := "17" }
  { built with
    uris := built.uris.alloc { name := linkParserResultName }
    phrases := Arena.alloc .empty { uri := 0, text := "browser", concepts := [0] }
    networks := (Arena.alloc .empty { nodes := [0] }).alloc {} }

/-- A narrative of the one phrase. -/
def browserNarrative : AnnotatedNarrative :=
  { sentences := [{ phrases := [0], uri := 1, text := "browser" }], uri := 1 }

/-- The narrative is the only object that is known. -/
def browserObjects : Resource → Option AnnotatedNarrative
  | .other 0 _ => some browserNarrative
  | _ => none

/-- A context with the narrative. -/
def browserContext (simulationResult simulationModel : Option NetworkRef) : Context :=
  { frames := .ofList [(1, .other 0 1)], simulationResult, simulationModel }

theorem filed_browserHeap : browserHeap.Filed := by
  have built := Heap.filed_empty.constructed { value := "browser", name := "browser" }
    { name := "browser", uid := "17" }
  have filed := filed_withURI built { name := linkParserResultName }
  exact ⟨{ filed.wellFormed with }, filed.frames, filed.linkFrames⟩

theorem narrativeIn_browserContext (simulationResult simulationModel : Option NetworkRef) :
    narrativeIn browserObjects browserHeap (browserContext simulationResult simulationModel) =
      some browserNarrative := by
  have plain : narrativeIn browserObjects browserHeap (browserContext none none) =
      some browserNarrative := by decide +kernel
  exact plain

theorem present_browserContext (simulationResult simulationModel : Option NetworkRef) :
    Present browserObjects browserHeap (browserContext simulationResult simulationModel) where
  frames uri member := by
    obtain rfl := List.mem_singleton.mp member
    exact Nat.one_lt_two
  concepts narrative found := by
    rw [narrativeIn_browserContext] at found
    cases found
    decide +kernel

/-- The browser is looked for, and gets a parent. -/
theorem exists_run_browser (cs : List ConceptRef) (model : ConceptNetwork)
    (outside : clarifiedTargetConcepts browserHeap cs model = [0]) : ∃ tr s,
      (processClarifiedConcepts { reduceLinks := [] } 1 cs model).run browserHeap = .ok tr s := by
  obtain ⟨domainConcepts, s, created⟩ : ∃ domainConcepts s,
      (createDomainConcepts { reduceLinks := [] } 1 [0]).run browserHeap =
        .ok domainConcepts s := ⟨_, _, rfl⟩
  let maps := shortestMaps browserHeap cs model
  rw [← outside] at created
  exact ⟨(maps.flatten, domainConcepts, checkShortestMaps browserHeap cs maps model), s,
    run_bind_eq_ok_iff.mpr ⟨_, _, rfl, run_bind_eq_ok_iff.mpr ⟨_, _, created, rfl⟩⟩⟩

theorem browser_learned : ∃ model' t,
    (clarifyAll { reduceLinks := [] } 1 browserObjects 1 [browserContext (some 0) none]).run
      browserHeap = .ok model' t ∧
    Learned browserObjects browserHeap 0 1 [browserContext (some 0) none] t model' := by
  let context := browserContext (some 0) (some 1)
  obtain ⟨tr, s, processed⟩ := exists_run_browser (clarified browserHeap context browserNarrative 1)
    (browserHeap.network 1) (by decide +kernel)
  have table : PlainTable { reduceLinks := [] } browserHeap := fun _ member => nomatch member
  have filed : s.Filed := (correlated_of_run filed_browserHeap table (by decide +kernel)
    processed).filed
  have inContext : narrativeIn browserObjects browserHeap context = some browserNarrative :=
    narrativeIn_browserContext _ _
  obtain ⟨returned, t, applied⟩ := exists_run_apply inContext rfl
    (fun _ has => by cases has; decide +kernel) filed processed
  have run : (clarifyAll { reduceLinks := [] } 1 browserObjects 1
      [browserContext (some 0) none]).run browserHeap =
        .ok (returned.simulationModel.getD 1) t :=
    run_bind_eq_ok_iff.mpr ⟨returned, t, applied, rfl⟩
  exact ⟨returned.simulationModel.getD 1, t, run, learned_of_run { reduceLinks := [] } 1
    browserObjects browserHeap t 0 1 _ [browserContext (some 0) none] filed_browserHeap table
    ⟨by decide, by decide +kernel⟩ ⟨by decide, by decide +kernel⟩
    (List.forall_mem_singleton.mpr (present_browserContext _ _))
    (List.forall_mem_singleton.mpr rfl) run⟩

end CorrelationWay2Think

/-! ### Connected concepts -/

/-- Two concepts are linked, or they are the same one for a model. -/
structure Heap.Touches (heap : Heap) (c d : ConceptRef) : Prop where
  left : c < heap.concepts.size
  right : d < heap.concepts.size
  touch : heap.LinkedTo c d ∨ (heap.concept c).uri = (heap.concept d).uri

/-- Concepts are connected by links, whatever their direction. -/
def Heap.Connected (heap : Heap) : ConceptRef → ConceptRef → Prop :=
  Relation.EqvGen heap.Touches

section Connected

variable {heap t : Heap} {c d m : ConceptRef} {targetModel : ConceptNetwork}
  {processed : List ConceptRef}

theorem Heap.WellFormed.linkedTo_lt (wf : heap.WellFormed) (linked : heap.LinkedTo c d) :
    d < heap.concepts.size := by
  obtain ⟨link, stored, rfl⟩ := linked
  obtain ⟨l, member, rfl⟩ := List.mem_map.mp stored
  obtain ⟨source, destination⟩ := wf.ends l (wf.linked c l member)
  rcases otherEnd_eq c (heap.link l) with same | same
  · rwa [same]
  · rwa [same]

/-- Only existing concepts are connected with other ones. -/
theorem Heap.Connected.lt_iff (connected : heap.Connected c d) :
    c < heap.concepts.size ↔ d < heap.concepts.size := by
  induction connected with
  | rel a b touches => exact iff_of_true touches.left touches.right
  | refl a => rfl
  | symm a b _ ih => exact ih.symm
  | trans a b e _ _ first second => exact first.trans second

theorem Heap.Preserved.connected (preserved : heap.Preserved t) (wf : heap.WellFormed)
    (connected : heap.Connected c d) : t.Connected c d := by
  refine connected.mono fun a b touches => ⟨?_, ?_, touches.touch.imp ?_ ?_⟩
  · exact touches.left.trans_le preserved.concepts_le
  · exact touches.right.trans_le preserved.concepts_le
  · exact preserved.linkedTo wf touches.left
  · intro same
    rw [preserved.conceptURIs a touches.left, same, preserved.conceptURIs b touches.right]

namespace Correlation

theorem mem_joinMappings {linked : List ConceptRef} {res : List (List ConceptRef)}
    (member : m ∈ joinMappings c linked res) :
    m ∈ linked ∨ m = c ∨ ∃ mapping ∈ res, m ∈ mapping := by
  unfold joinMappings at member
  cases mappings : res.filter fun lC => 0 < lC.length with
  | nil =>
    rw [mappings] at member
    cases member
  | cons first rest =>
    rw [mappings] at member
    have chosen := foldl_shortest_mem rest first
    rw [← mappings] at chosen
    rcases List.mem_append.mp member with before | shortest
    · rcases List.mem_append.mp before with leaf | self
      · exact Or.inl (List.mem_of_mem_filter leaf)
      · exact Or.inr (Or.inl (List.mem_singleton.mp self))
    · exact Or.inr (Or.inr ⟨_, List.mem_of_mem_filter chosen, shortest⟩)

/-- What a path is made of, the leaves beside it included, is connected with its concept. -/
theorem connected_findPathToTarget (wf : heap.WellFormed) (inside : c < heap.concepts.size)
    (member : m ∈ findPathToTarget heap c targetModel processed) : heap.Connected c m := by
  induction processed, c using search_induction heap targetModel with
  | inTarget processed c found =>
    rw [findPathToTarget_of_inTarget heap found] at member
    exact List.mem_singleton.mp member ▸ .refl c
  | notInTarget processed c outside ih =>
    have link : ∀ d, d ∈ filterLinksMapConcepts (heap.linksOf c) c processed →
        heap.Touches c d := by
      intro d step
      have linked : heap.LinkedTo c d := (mem_filterLinksMapConcepts.mp step).1
      exact ⟨inside, wf.linkedTo_lt linked, Or.inl linked⟩
    rw [findPathToTarget_of_notInTarget heap outside] at member
    rcases mem_joinMappings member with leaf | rfl | ⟨mapping, found, within⟩
    · exact .rel c m (link m leaf)
    · exact .refl m
    · obtain ⟨d, step, rfl⟩ := List.mem_map.mp found
      exact .trans c d m (.rel c d (link d step)) (ih d step (link d step).right within)

/-- What a path is made of is connected with a node of the target. -/
theorem exists_connected_node (wf : heap.WellFormed) (inside : c < heap.concepts.size)
    (nodes : ∀ n ∈ targetModel.nodes, n < heap.concepts.size)
    (member : m ∈ findPathToTarget heap c targetModel []) :
    ∃ n ∈ targetModel.nodes, heap.Connected m n := by
  obtain ⟨rest, sublist, -, last, ends, found⟩ :=
    leadsToTarget_findPathToTarget (List.ne_nil_of_mem member)
  have toLast := connected_findPathToTarget wf inside
    (sublist.subset (List.mem_of_getLast? ends))
  obtain ⟨n, here⟩ := List.exists_mem_of_length_pos (length_getNodeByURI_pos found)
  obtain ⟨node, uri⟩ := List.mem_filter.mp here
  have same : (heap.concept last).uri = (heap.concept n).uri := (of_decide_eq_true uri).symm
  have present : last < heap.concepts.size := toLast.lt_iff.mp inside
  refine ⟨n, node, .trans m c n (.symm c m (connected_findPathToTarget wf inside member)) ?_⟩
  exact .trans c last n toLast (.rel last n ⟨present, nodes n node, Or.inr same⟩)

end Correlation

end Connected

/-! ### Trainings one after another -/

namespace CorrelationWay2Think

/-- A training that has taken place: the graph and the model that it started from, and the
concepts it was told of. -/
structure Lesson where
  heap : Heap
  model : ConceptNetwork
  concepts : List ConceptRef

/-- Trainings, from a graph and the nodes of a model to those that are left. A training correlates
a context without a simulation result, and commits the nodes of the last result to the model. The
model of the next training has these nodes; what else is done in between lets the graph grow. -/
inductive Trainings (defaults : Defaults) (stack : ℕ)
    (narrativeOf : Resource → Option AnnotatedNarrative) (heap : Heap) (nodes : List ConceptRef) :
    List Lesson → Heap → List ConceptRef → Prop
  | start : Trainings defaults stack narrativeOf heap nodes [] heap nodes
  | train {lessons t nodes' u} {context returned : Context} {narrative model r uri}
      (before : Trainings defaults stack narrativeOf heap nodes lessons t nodes')
      (noResult : context.simulationResult = none) (hasModel : context.simulationModel = some model)
      (current : (t.network model).nodes = nodes')
      (inContext : narrativeIn narrativeOf t context = some narrative)
      (present : Present narrativeOf t context)
      (run : (apply defaults stack narrativeOf context).run t = .ok returned u)
      (committed : returned.lastResult = some (.conceptNetwork r uri)) :
      Trainings defaults stack narrativeOf heap nodes
        (lessons ++ [⟨t, t.network model, t.conceptsOfNarrative narrative⟩]) u
        (nodes' ++ (u.network r).nodes)
  | grow {lessons t nodes' u}
      (before : Trainings defaults stack narrativeOf heap nodes lessons t nodes')
      (preserved : t.Preserved u) (filed : u.Filed) (table : PlainTable defaults u) :
      Trainings defaults stack narrativeOf heap nodes lessons u nodes'

/-- The model has grown by concepts that are connected with nodes it had, and it has every concept
of a lesson that could reach it. -/
structure Taught (nodes : List ConceptRef) (lessons : List Lesson) (t : Heap)
    (nodes' : List ConceptRef) : Prop where
  grown : nodes <+: nodes'
  connected : ∀ n ∈ nodes', ∃ m ∈ nodes, t.Connected n m
  known : ∀ lesson ∈ lessons, ∀ c ∈ lesson.concepts, ReachesTarget lesson.heap lesson.model c →
    ∃ n ∈ nodes', (t.concept n).uri = (t.concept c).uri

/-- What holds while trainings go on. -/
structure Teaching (defaults : Defaults) (nodes : List ConceptRef) (lessons : List Lesson)
    (t : Heap) (nodes' : List ConceptRef) : Prop where
  taught : Taught nodes lessons t nodes'
  filed : t.Filed
  table : PlainTable defaults t
  nodes_lt : ∀ n ∈ nodes', n < t.concepts.size
  concepts_lt : ∀ lesson ∈ lessons, ∀ c ∈ lesson.concepts, c < t.concepts.size

variable {defaults : Defaults} {stack : ℕ} {narrativeOf : Resource → Option AnnotatedNarrative}
  {heap t u : Heap} {nodes nodes' : List ConceptRef} {lessons : List Lesson}

theorem Teaching.grow (teaching : Teaching defaults nodes lessons t nodes')
    (preserved : t.Preserved u) (filed : u.Filed) (table : PlainTable defaults u) :
    Teaching defaults nodes lessons u nodes' where
  taught :=
    { grown := teaching.taught.grown
      connected := fun n member => by
        obtain ⟨m, node, connected⟩ := teaching.taught.connected n member
        exact ⟨m, node, preserved.connected teaching.filed.wellFormed connected⟩
      known := fun lesson taken c told reaches => by
        obtain ⟨n, node, same⟩ := teaching.taught.known lesson taken c told reaches
        refine ⟨n, node, ?_⟩
        rw [preserved.conceptURIs n (teaching.nodes_lt n node), same,
          preserved.conceptURIs c (teaching.concepts_lt lesson taken c told)] }
  filed := filed
  table := table
  nodes_lt n member := (teaching.nodes_lt n member).trans_le preserved.concepts_le
  concepts_lt lesson taken c told :=
    (teaching.concepts_lt lesson taken c told).trans_le preserved.concepts_le

/-- What a training commits: the maps of what it was told of. -/
theorem committed_eq (teaching : Teaching defaults nodes lessons t nodes')
    {context returned : Context} {narrative : AnnotatedNarrative} {model r : NetworkRef}
    {uri : UriRef} (noResult : context.simulationResult = none)
    (hasModel : context.simulationModel = some model)
    (inContext : narrativeIn narrativeOf t context = some narrative)
    (present : Present narrativeOf t context)
    (run : (apply defaults stack narrativeOf context).run t = .ok returned u)
    (committed : returned.lastResult = some (.conceptNetwork r uri)) :
    t.Preserved u ∧ u.Filed ∧ PlainTable defaults u ∧ (u.network r).nodes =
      (shortestMaps t (t.conceptsOfNarrative narrative) (t.network model)).flatten := by
  obtain ⟨narrative', model', inContext', hasModel', tr, s, correlated, reports⟩ :=
    exists_correlated teaching.filed teaching.table present
      (fun _ has => by rw [noResult] at has; cases has) run
  cases inContext.symm.trans inContext'
  cases hasModel.symm.trans hasModel'
  have told : clarified t context narrative model = t.conceptsOfNarrative narrative := by
    rw [clarified, noResult]
  have known : knownNodes t context = [] := by rw [knownNodes, noResult, Option.elim_none]
  obtain ⟨r', uri', last, made⟩ := reports.lastResult
  cases committed.symm.trans last
  refine ⟨correlated.preserved.trans reports.noted.preserved, reports.noted.filed,
    reports.noted.table defaults correlated.table, ?_⟩
  rw [made, known, List.nil_append, correlated.maps, told]

/-- A training adds what is connected with the model, and what can reach it. -/
theorem Teaching.train (teaching : Teaching defaults nodes lessons t nodes')
    {context returned : Context} {narrative : AnnotatedNarrative} {model r : NetworkRef}
    {uri : UriRef} (noResult : context.simulationResult = none)
    (hasModel : context.simulationModel = some model)
    (current : (t.network model).nodes = nodes')
    (inContext : narrativeIn narrativeOf t context = some narrative)
    (present : Present narrativeOf t context)
    (run : (apply defaults stack narrativeOf context).run t = .ok returned u)
    (committed : returned.lastResult = some (.conceptNetwork r uri)) :
    Teaching defaults nodes
      (lessons ++ [⟨t, t.network model, t.conceptsOfNarrative narrative⟩]) u
      (nodes' ++ (u.network r).nodes) := by
  have wf := teaching.filed.wellFormed
  obtain ⟨preserved, filed, table, maps⟩ :=
    committed_eq teaching noResult hasModel inContext present run committed
  have told := present.concepts narrative inContext
  have later := teaching.grow preserved filed table
  -- what is on a map is connected with a node of the model, and so with one of the first nodes
  have mapped : ∀ m ∈ (u.network r).nodes, ∃ n ∈ nodes', t.Connected m n := by
    intro m member
    rw [maps] at member
    obtain ⟨map, among, within⟩ := List.mem_flatten.mp member
    obtain ⟨c, here, rfl⟩ := List.mem_map.mp among
    rw [← current]
    exact exists_connected_node wf (told c (List.mem_of_mem_filter here))
      (current ▸ teaching.nodes_lt) within
  constructor
  case filed => exact filed
  case table => exact table
  case nodes_lt =>
    refine List.forall_mem_append.mpr ⟨later.nodes_lt, fun m member => ?_⟩
    obtain ⟨n, node, connected⟩ := mapped m member
    exact (connected.lt_iff.mpr (teaching.nodes_lt n node)).trans_le preserved.concepts_le
  case concepts_lt =>
    refine List.forall_mem_append.mpr ⟨later.concepts_lt, List.forall_mem_singleton.mpr ?_⟩
    exact fun c member => (told c member).trans_le preserved.concepts_le
  case taught =>
    constructor
    case grown => exact teaching.taught.grown.trans (List.prefix_append _ _)
    case connected =>
      refine List.forall_mem_append.mpr ⟨later.taught.connected, fun m member => ?_⟩
      obtain ⟨n, node, connected⟩ := mapped m member
      obtain ⟨first, there, back⟩ := teaching.taught.connected n node
      exact ⟨first, there, preserved.connected wf (.trans m n first connected back)⟩
    case known =>
      refine List.forall_mem_append.mpr ⟨?_, List.forall_mem_singleton.mpr ?_⟩
      · intro lesson taken c member reaches
        obtain ⟨n, node, same⟩ := later.taught.known lesson taken c member reaches
        exact ⟨n, List.mem_append_left _ node, same⟩
      · intro c member reaches
        dsimp only at member reaches
        by_cases inside : (findInTarget t c (t.network model)).isSome
        · -- it has been known already
          obtain ⟨n, here⟩ := List.exists_mem_of_length_pos (length_getNodeByURI_pos inside)
          obtain ⟨node, uri⟩ := List.mem_filter.mp here
          rw [current] at node
          refine ⟨n, List.mem_append_left _ node, ?_⟩
          rw [preserved.conceptURIs n (teaching.nodes_lt n node),
            preserved.conceptURIs c (told c member)]
          exact of_decide_eq_true uri
        · -- its map starts with it
          have found := (findPathToTarget_nil_ne_nil_iff t).mpr reaches
          obtain ⟨rest, sublist, -⟩ := leadsToTarget_findPathToTarget found
          refine ⟨c, List.mem_append_right _ ?_, rfl⟩
          rw [maps]
          refine List.mem_flatten.mpr ⟨_, List.mem_map.mpr ⟨c, List.mem_filter.mpr
            ⟨member, by simpa using inside⟩, rfl⟩, sublist.subset List.mem_cons_self⟩

/-- Trainings put no island into the model: each node that they add is connected by links with a
node that the model had, and every concept of a lesson that could reach the model is known from
then on, whatever else is done in between. -/
theorem taught_of_trainings (defaults : Defaults) (stack : ℕ)
    (narrativeOf : Resource → Option AnnotatedNarrative) (heap t : Heap)
    (nodes nodes' : List ConceptRef) (lessons : List Lesson) (filed : heap.Filed)
    (table : PlainTable defaults heap) (inside : ∀ n ∈ nodes, n < heap.concepts.size)
    (trainings : Trainings defaults stack narrativeOf heap nodes lessons t nodes') :
    Taught nodes lessons t nodes' := by
  suffices teaching : Teaching defaults nodes lessons t nodes' from teaching.taught
  induction trainings with
  | start =>
    refine ⟨⟨List.prefix_refl _, fun n member => ⟨n, member, .refl n⟩, List.forall_mem_nil _⟩,
      filed, table, inside, List.forall_mem_nil _⟩
  | train _ noResult hasModel current inContext present run committed ih =>
    exact ih.train noResult hasModel current inContext present run committed
  | grow _ preserved filed table ih => exact ih.grow preserved filed table

/-- Instances of a browser and of a firefox. -/
def browsersHeap : Heap :=
  let browser := Heap.constructed {} {} { value := "browser", name := "browser" }
    { name := "browser", uid := "17" }
  browser.constructed {} { value := "firefox", name := "firefox" }
    { name := "firefox", uid := "18" }

/-- The firefox has a link to the browser. There are phrases for both, and a network of the
browser. -/
def firefoxHeap : Heap :=
  let linked := (browsersHeap.withLink 1 0 { name := "be", uid := "19" } {}).withLinks 1 [0]
  { linked with
    uris := linked.uris.alloc { name := linkParserResultName }
    phrases := (Arena.alloc .empty { uri := 0, text := "browser" }).alloc
      { uri := 1, text := "firefox", concepts := [1] }
    phraseLines := linked.phraseLines.modify 0 fun _ => { frames := .ofList [(0, 0)] }
    networks := Arena.alloc .empty { nodes := [0] } }

theorem filed_firefoxHeap : firefoxHeap.Filed := by
  have browser := Heap.filed_empty.constructed { value := "browser", name := "browser" }
    { name := "browser", uid := "17" }
  have both : browsersHeap.Filed := browser.constructed { value := "firefox", name := "firefox" }
    { name := "firefox", uid := "18" }
  have ends : 1 < browsersHeap.concepts.size ∧ 0 < browsersHeap.concepts.size := by decide +kernel
  have link := both.withLink ends { name := "be", uid := "19" } {}
  have linked := link.wellFormed.withLinks ends.left
    (List.forall_mem_singleton.mpr (Nat.lt_of_lt_of_eq Nat.zero_lt_one rfl))
  have filed := filed_withURI ⟨linked, link.frames, link.linkFrames⟩
    { name := linkParserResultName }
  exact ⟨{ filed.wellFormed with }, filed.frames, filed.linkFrames⟩

/-- A narrative of the phrase for the firefox. -/
def firefoxNarrative : AnnotatedNarrative :=
  { sentences := [{ phrases := [1], uri := 3, text := "firefox" }], uri := 3 }

/-- The narrative is the only object that is known. -/
def firefoxObjects : Resource → Option AnnotatedNarrative
  | .other 0 _ => some firefoxNarrative
  | _ => none

/-- A context with the narrative, and the network of the browser as its model. -/
def firefoxContext : Context :=
  { frames := .ofList [(3, .other 0 3)], simulationModel := some 0 }

/-- The firefox is not in the model and has a link to the browser, which is: it is committed with
its map, and known from then on. -/
theorem browser_taught : ∃ t nodes',
    Trainings { reduceLinks := [] } 1 firefoxObjects firefoxHeap [0]
      [⟨firefoxHeap, firefoxHeap.network 0, [1]⟩] t nodes' ∧
    Taught [0] [⟨firefoxHeap, firefoxHeap.network 0, [1]⟩] t nodes' := by
  have inContext : narrativeIn firefoxObjects firefoxHeap firefoxContext =
      some firefoxNarrative := by decide +kernel
  have model : (firefoxHeap.network 0).nodes = [0] := rfl
  have told : firefoxHeap.conceptsOfNarrative firefoxNarrative = [1] := by decide +kernel
  have table : PlainTable { reduceLinks := [] } firefoxHeap := fun _ member => nomatch member
  have present : Present firefoxObjects firefoxHeap firefoxContext := by
    refine ⟨by decide +kernel, fun narrative found => ?_⟩
    rw [inContext] at found
    cases found
    rw [told]
    decide +kernel
  -- the firefox is looked for, and gets a parent
  let maps := shortestMaps firefoxHeap [1] (firefoxHeap.network 0)
  have outside : clarifiedTargetConcepts firefoxHeap [1] (firefoxHeap.network 0) = [1] := by
    decide +kernel
  obtain ⟨domainConcepts, s, created⟩ : ∃ domainConcepts s,
      (createDomainConcepts { reduceLinks := [] } 1 [1]).run firefoxHeap =
        .ok domainConcepts s := ⟨_, _, rfl⟩
  rw [← outside] at created
  have processed : (processClarifiedConcepts { reduceLinks := [] } 1 [1]
      (firefoxHeap.network 0)).run firefoxHeap = .ok (maps.flatten, domainConcepts,
        checkShortestMaps firefoxHeap [1] maps (firefoxHeap.network 0)) s :=
    run_bind_eq_ok_iff.mpr ⟨_, _, rfl, run_bind_eq_ok_iff.mpr ⟨_, _, created, rfl⟩⟩
  have filed : s.Filed := (correlated_of_run filed_firefoxHeap table (by decide +kernel)
    processed).filed
  rw [← told] at processed
  obtain ⟨returned, t, applied⟩ :=
    exists_run_apply inContext rfl (fun _ has => nomatch has) filed processed
  obtain ⟨_, _, _, _, _, _, -, reports⟩ := exists_correlated filed_firefoxHeap table present
    (fun _ has => nomatch has) applied
  obtain ⟨r, uri, committed, -⟩ := reports.lastResult
  have trained :=
    Trainings.start.train rfl rfl model inContext present applied committed
  rw [told] at trained
  exact ⟨t, _, trained, taught_of_trainings { reduceLinks := [] } 1 firefoxObjects firefoxHeap t [0]
    _ _ filed_firefoxHeap table (by decide +kernel) trained⟩

end CorrelationWay2Think

end ThinkingUnderstanding
