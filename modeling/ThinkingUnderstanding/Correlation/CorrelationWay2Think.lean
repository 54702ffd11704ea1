import ThinkingUnderstanding.Correlation.Clarification
import ThinkingUnderstanding.Correlation.FailedDomainConcepts
import ThinkingUnderstanding.Reformulation.Reformulation
import ThinkingUnderstanding.Spike.RoboticRequests

/-!
# A context is correlated with its model

`CorrelationWay2Think.apply` takes the parsed narrative and the simulation model of a context.
With a simulation result, the concepts of the result that the model does not know are looked for
in the narrative; without one, all concepts of the narrative are. What is found is mapped to the
model, and the context that is returned has the maps as its last result and a model with the new
domain concepts.

What a call creates comes after what there was. No object that existed is changed, but for links
and parents that concepts get in addition.

## Main definitions

* `Correlation.apply`, `Correlation.applyClarification` — the two methods of `Correlation`
* `CorrelationWay2Think.apply` — the method on contexts
* `Heap.Preserved` — what a call preserves

## Main results

* `preserved_processClarifiedConcepts` — a call preserves what there was
* `run_apply_eq_ok` — what is returned
-/

namespace ThinkingUnderstanding

open Math Semantics

/-- `SimulationReformulationAbstract.filterConceptListNegative`. -/
def Heap.filterConceptListNegative (heap : Heap) (currentConcepts : List ConceptRef)
    (model : ConceptNetwork) : List ConceptRef :=
  currentConcepts.filter fun c => (heap.getNodeByName model (heap.uriOf c).name).length < 1

/-- `AnnotatedNarrative.conceptNetwork`, of which only the nodes are used. -/
def Heap.conceptNetworkOf (heap : Heap) (narrative : AnnotatedNarrative) : ConceptNetwork where
  nodes := heap.conceptsOfNarrative narrative

/-- The shortest maps, the domain concepts and the concepts that are not understood. -/
abbrev TripleResult := List ConceptRef × List ConceptRef × List ConceptRef

namespace Correlation

variable (defaults : Defaults) (stack : ℕ)

/-- `Correlation.processClarification`. -/
def processClarification (mappingNarrative : AnnotatedNarrative) (targetModel : ConceptNetwork) :
    GraphProgram TripleResult := do
  let clarifiedConcepts := ((← get).conceptNetworkOf mappingNarrative).nodes
  processClarifiedConcepts defaults stack clarifiedConcepts targetModel

/-- `Correlation.processNotKnown`. -/
def processNotKnown (notKnown : List ConceptRef) (mappingNarrative : AnnotatedNarrative)
    (targetModel : ConceptNetwork) : GraphProgram TripleResult := do
  let heap ← get
  let clarifiedConcepts := heap.filterConceptList notKnown (heap.conceptNetworkOf mappingNarrative)
  processClarifiedConcepts defaults stack clarifiedConcepts targetModel

/-- `Correlation.apply(clarification, simulationResult, domainModel)`. -/
def apply (clarification : AnnotatedNarrative) (simulationResult domainModel : ConceptNetwork) :
    GraphProgram (Option TripleResult) := do
  let notKnown := (← get).filterConceptListNegative simulationResult.nodes domainModel
  if notKnown.length > 0 then
    let processed ← processNotKnown defaults stack notKnown clarification domainModel
    return some processed
  else return none

/-- `Correlation.apply(clarification, domainModel)`. -/
def applyClarification (clarification : AnnotatedNarrative) (domainModel : ConceptNetwork) :
    GraphProgram (Option TripleResult) := do
  let processed ← processClarification defaults stack clarification domainModel
  return some processed

end Correlation

/-- `Constant.LINK_PARSER_RESULT_NAME`. -/
def linkParserResultName : String := "LinkedNarrative"

/-- `Constant.UNDERSTOOD_CONCEPTS`. -/
def understoodConceptsName : String := "$UnderstoodConcepts"

namespace CorrelationWay2Think

/-- `this.getClass.getName`. -/
def className : String := "tu.coreservice.action.way2think.correlation.CorrelationWay2Think"

/-- Why the method ends with an exception. -/
inductive Failure
  | unexpectedException (message : String)
  | matchError (value : Resource)
  | graph (failure : GraphFailure)
  deriving DecidableEq, Repr

/-- The contexts of the life cycle. -/
abbrev Context := ShortTermMemory ConceptRef PhraseRef

/-- `ConceptNetwork(nodes, name)`, a new object. -/
def newNetwork (nodes : List ConceptRef) (name : String) :
    EStateM Failure Heap (NetworkRef × UriRef) := do
  let uri ← EStateM.adaptExcept .graph (Concept.newURI name)
  modifyGet fun heap =>
    let links := nodes.flatMap fun node => (heap.concept node).conceptLinks
    ((heap.networks.size, uri), { heap with networks := heap.networks.alloc { nodes, links, uri } })

/-- `Way2Think.setResultsToReport`. -/
def setResultsToReport (context : Context) (concepts : List ConceptRef) :
    EStateM Failure Heap Context := do
  let uri ← EStateM.adaptExcept .graph (Concept.newURI understoodConceptsName)
  return { context with resultToReport := context.resultToReport.add uri ⟨concepts, uri⟩ }

/-- The context with the model that has the domain concepts, if there are any. -/
def withUpdatedModel (model : ConceptNetwork) (domainConcepts : List ConceptRef)
    (context : Context) : EStateM Failure Heap Context :=
  if domainConcepts.length > 0 then do
    let updatedSimulationModel ←
      newNetwork (model.nodes ++ domainConcepts) (className ++ "Model" ++ "result")
    setResultsToReport { context with simulationModel := some updatedSimulationModel.1 }
      domainConcepts
  else pure context

/-- The context with the concepts that are not understood, if there are any. -/
def withNotUnderstood (notUnderstood : List ConceptRef) (context : Context) : Context :=
  if notUnderstood.length > 0 then { context with notUnderstoodConcepts := notUnderstood }
  else context

/-- The context that is returned: its last result has the maps behind what was known. -/
def outputContext (known : List ConceptRef) (model : ConceptNetwork) (name : String)
    (tr : TripleResult) : EStateM Failure Heap Context := do
  let updatedSimulationResult ← newNetwork (known ++ tr.1) (className ++ name ++ "result")
  let context := ContextHelper.ofLastResult []
    (.conceptNetwork updatedSimulationResult.1 updatedSimulationResult.2)
  let context ← withUpdatedModel model tr.2.1 context
  return withNotUnderstood tr.2.2 context

/-- The names of the URIs that a context has its frames under. -/
def objectsOf (heap : Heap) : Objects where
  name uri := (heap.uri uri).name
  content _ := .unknown

variable (defaults : Defaults) (stack : ℕ)
  -- the objects that are annotated narratives
  (narrativeOf : Resource → Option AnnotatedNarrative)

/-- `CorrelationWay2Think.apply`. No cast is left that could fail, so nothing is caught. -/
def apply (inputContext : Context) : EStateM Failure Heap Context := do
  let heap ← get
  match inputContext.findByName (objectsOf heap) linkParserResultName with
  | some resource =>
      match narrativeOf resource with
      | some narrative =>
          match inputContext.simulationModel with
          | some model =>
              match inputContext.simulationResult with
              | some result =>
                  match ← EStateM.adaptExcept .graph (Correlation.apply defaults stack narrative
                      (heap.network result) (heap.network model)) with
                  | some tr =>
                      outputContext (heap.network result).nodes (heap.network model) "Simulation" tr
                  | none =>
                      throw (.unexpectedException "$No_matches_detected_in_domain_model")
              | none =>
                  match ← EStateM.adaptExcept .graph (Correlation.applyClarification defaults stack
                      narrative (heap.network model)) with
                  | some tr => outputContext [] (heap.network model) "Training" tr
                  | none =>
                      throw (.unexpectedException "$No_matches_detected_in_domain_model")
          | none => throw (.unexpectedException "$No_domain_model_specified")
      | none => throw (.matchError resource)
  | none => throw (.unexpectedException "$Context_lastResult_is_None")

/-- The narrative that the method reads in a context. -/
def narrativeIn (heap : Heap) (context : Context) : Option AnnotatedNarrative :=
  (context.findByName (objectsOf heap) linkParserResultName).bind narrativeOf

end CorrelationWay2Think

/-! ### What is preserved -/

/-- The objects of a graph are there, and concepts have the links that they had. -/
structure Heap.Preserved (heap t : Heap) : Prop where
  concepts_le : heap.concepts.size ≤ t.concepts.size
  uris : heap.uris.Extends t.uris
  links : heap.links.Extends t.links
  phrases : t.phrases = heap.phrases
  networks : heap.networks.Extends t.networks
  conceptURIs : ∀ c < heap.concepts.size, (t.concept c).uri = (heap.concept c).uri
  conceptLinks : ∀ c < heap.concepts.size, ∀ l ∈ (heap.concept c).conceptLinks,
    l ∈ (t.concept c).conceptLinks

namespace Heap.Preserved

variable {heap t u : Heap} {c d : ConceptRef}

theorem refl (heap : Heap) : heap.Preserved heap where
  concepts_le := Nat.le_refl _
  uris := .refl _
  links := .refl _
  phrases := rfl
  networks := .refl _
  conceptURIs _ _ := rfl
  conceptLinks _ _ _ := id

theorem trans (first : heap.Preserved t) (second : t.Preserved u) : heap.Preserved u where
  concepts_le := first.concepts_le.trans second.concepts_le
  uris := first.uris.trans second.uris
  links := first.links.trans second.links
  phrases := second.phrases.trans first.phrases
  networks := first.networks.trans second.networks
  conceptURIs c inside := by
    rw [second.conceptURIs c (inside.trans_le first.concepts_le), first.conceptURIs c inside]
  conceptLinks c inside l :=
    second.conceptLinks c (inside.trans_le first.concepts_le) l ∘ first.conceptLinks c inside l

theorem uriOf_eq (preserved : heap.Preserved t) (wf : heap.WellFormed)
    (inside : c < heap.concepts.size) : t.uriOf c = heap.uriOf c := by
  rw [Heap.uriOf, preserved.conceptURIs c inside]
  exact preserved.uris.get _ (wf.uris c inside)

/-- Concepts that are linked stay linked. -/
theorem linkedTo (preserved : heap.Preserved t) (wf : heap.WellFormed)
    (inside : c < heap.concepts.size) (linked : heap.LinkedTo c d) : t.LinkedTo c d := by
  obtain ⟨link, stored, rfl⟩ := linked
  obtain ⟨l, member, rfl⟩ := List.mem_map.mp stored
  refine ⟨heap.link l, List.mem_map.mpr ⟨l, preserved.conceptLinks c inside l member, ?_⟩, rfl⟩
  exact preserved.links.get l (wf.linked c l member)

theorem conceptsOfNarrative_eq (preserved : heap.Preserved t) (narrative : AnnotatedNarrative) :
    t.conceptsOfNarrative narrative = heap.conceptsOfNarrative narrative := by
  have phrase : t.phrase = heap.phrase := by
    funext p
    rw [Heap.phrase, preserved.phrases, Heap.phrase]
  have sentence : t.conceptsOfSentence = heap.conceptsOfSentence := by
    funext sentence
    rw [Heap.conceptsOfSentence, phrase, Heap.conceptsOfSentence]
  rw [Heap.conceptsOfNarrative, sentence, Heap.conceptsOfNarrative]

end Heap.Preserved

namespace Correlation

variable {defaults : Defaults} {heap t s : Heap} {c p : ConceptRef} {rest ps : List ConceptRef}
  {parented : List ConceptRef} {reduces : Prop}

/-- Objects that the creation of domain concepts does not touch. -/
structure KeepsTexts (heap t : Heap) : Prop where
  networks : t.networks = heap.networks
  phrases : t.phrases = heap.phrases

theorem KeepsTexts.trans (first : KeepsTexts heap t) (second : KeepsTexts t s) :
    KeepsTexts heap s :=
  ⟨second.networks.trans first.networks, second.phrases.trans first.phrases⟩

/-- The parent of an instance is new. -/
theorem parent_created (since : Since heap parented reduces t) (wf : heap.WellFormed)
    (inside : c < heap.concepts.size) (run : (createDomainConcept defaults c).run t = .ok p s) :
    Since heap (parented ++ [c]) reduces s ∧ KeepsTexts t s ∧ p = t.concepts.size ∧
      s.concepts.size = t.concepts.size + 1 := by
  obtain ⟨line, -, has, -, -, -⟩ := wf.lines c inside
  have has' : (t.concept c).generalisations = some line := by rw [since.concepts c inside, has]
  have present := inside.trans_le since.concepts_le
  have grown : ∀ name, (t.withParent line name).concepts.size = t.concepts.size + 1 :=
    fun name => Heap.size_concepts_constructed {} _ { name := name ++ conceptSuffix }
  by_cases here : IsInstance t c
  · by_cases uid : (t.uriOf c).uid ≠ ""
    · rw [run_createDomainConcept_of_uid present has' uid] at run
      cases run
      refine ⟨since.withObjects has _ defaults, ⟨rfl, rfl⟩, rfl, ?_⟩
      rw [Heap.withLine, Heap.size_concepts_withLinks ((grown _).symm ▸ Nat.lt_succ_self _), grown]
    · obtain ⟨name, created⟩ := run_createDomainConcept_of_name present has' defaults uid
        (here.resolve_left uid)
      rw [created] at run
      cases run
      exact ⟨since.withParent has name, ⟨rfl, rfl⟩, rfl, grown name⟩
  · obtain ⟨e, failed⟩ : ∃ e, (createDomainConcept defaults c).run t = .error e t :=
      run_createDomainConcept_of_not_isInstance here
    rw [failed] at run
    cases run

/-- The parents of instances are new, and nothing else is created with them. -/
theorem parents_created (since : Since heap parented reduces t) (wf : heap.WellFormed)
    (inside : ∀ c ∈ rest, c < heap.concepts.size)
    (run : (rest.mapM (createDomainConcept defaults)).run t = .ok ps s) :
    Since heap (parented ++ rest) reduces s ∧ KeepsTexts t s ∧ t.concepts.size ≤ s.concepts.size ∧
      ∀ p ∈ ps, t.concepts.size ≤ p ∧ p < s.concepts.size := by
  -- on the instances that remain
  induction rest generalizing t parented ps with
  | nil =>
    rw [List.mapM_nil] at run
    cases run
    rw [List.append_nil]
    exact ⟨since, ⟨rfl, rfl⟩, Nat.le_refl _, List.forall_mem_nil _⟩
  | cons c rest ih =>
    obtain ⟨first, later⟩ := List.forall_mem_cons.mp inside
    rw [List.mapM_cons] at run
    obtain ⟨p, m, created, run⟩ := run_bind_eq_ok_iff.mp run
    obtain ⟨others, m', runs, last⟩ := run_bind_eq_ok_iff.mp run
    cases last
    obtain ⟨since', kept, new, grown⟩ := parent_created since wf first created
    obtain ⟨since'', kept', grown', others_new⟩ := ih since' later runs
    rw [List.append_assoc, List.singleton_append] at since''
    have below : t.concepts.size < m.concepts.size := grown ▸ Nat.lt_succ_self _
    refine ⟨since'', kept.trans kept', below.le.trans grown', List.forall_mem_cons.mpr ⟨?_, ?_⟩⟩
    · exact ⟨new.ge, new ▸ below.trans_le grown'⟩
    · intro q member
      obtain ⟨above, present⟩ := others_new q member
      exact ⟨below.le.trans above, present⟩

/-- What is known of the domain concepts that have been created. -/
theorem domainConcepts_created (filed : heap.Filed) (table : PlainTable defaults heap)
    (inside : ∀ c ∈ rest, c < heap.concepts.size) {stack : ℕ}
    (run : (createDomainConcepts defaults stack rest).run heap = .ok ps s) :
    Since heap rest True s ∧ PlainTable defaults s ∧ KeepsTexts heap s ∧
      ∃ parents, ps = parents ++ rest ∧
        ∀ p ∈ parents, heap.concepts.size ≤ p ∧ p < s.concepts.size := by
  rw [createDomainConcepts] at run
  obtain ⟨parents, m, created, run⟩ := run_bind_eq_ok_iff.mp run
  obtain ⟨links, m', reduced, last⟩ := run_bind_eq_ok_iff.mp run
  cases last
  obtain ⟨since, kept, -, new⟩ :=
    parents_created (Since.start filed True) filed.wellFormed inside created
  rw [List.nil_append] at since
  -- the reduction of links keeps the texts too, since it only makes links
  have keptByLinks : KeptByLinks fun h => Since heap rest True h ∧ KeepsTexts m h := by
    constructor
    · exact fun h known => known.1.filed.wellFormed
    · exact fun h parent _ _ uri known ends =>
        ⟨known.1.withSubLink ends parent uri {} trivial, known.2.trans ⟨rfl, rfl⟩⟩
  have known := (maintains_reduceLinks keptByLinks stack rest).keeps (s := m)
    ⟨⟨since, rfl, rfl⟩, since.plainTable filed.wellFormed table, rfl⟩
  rw [reduced] at known
  have same : s.concepts.size = m.concepts.size := known.size_eq
  refine ⟨known.holds.1, known.table, kept.trans known.holds.2, parents, rfl, fun p member => ?_⟩
  rw [same]
  exact new p member

theorem preserved_of_since (since : Since heap rest reduces t) (kept : KeepsTexts heap t) :
    heap.Preserved t where
  concepts_le := since.concepts_le
  uris := ⟨since.uris_le, since.uris⟩
  links := ⟨since.links_le, since.linkObjects⟩
  phrases := kept.phrases
  networks := kept.networks ▸ .refl _
  conceptURIs c inside := by rw [since.concepts c inside]
  conceptLinks c inside l member := by
    obtain ⟨added, now, -, -⟩ := since.links c inside
    rw [now]
    exact List.mem_append_left _ member

/-- What a call finds, and what it leaves. -/
structure Correlated (defaults : Defaults) (heap : Heap) (clarifiedConcepts : List ConceptRef)
    (targetModel : ConceptNetwork) (tr : TripleResult) (t : Heap) : Prop where
  filed : t.Filed
  table : PlainTable defaults t
  preserved : heap.Preserved t
  maps : tr.1 = (shortestMaps heap clarifiedConcepts targetModel).flatten
  domainConcepts : ∃ parents,
    tr.2.1 = parents ++ clarifiedTargetConcepts heap clarifiedConcepts targetModel ∧
      ∀ p ∈ parents, heap.concepts.size ≤ p ∧ p < t.concepts.size
  understood : tr.2.2 = []

/-- A call preserves what there was, and adds parents of what it has not found. -/
theorem correlated_of_run (filed : heap.Filed) (table : PlainTable defaults heap)
    {clarifiedConcepts : List ConceptRef} (inside : ∀ c ∈ clarifiedConcepts, c < heap.concepts.size)
    {stack : ℕ} {targetModel : ConceptNetwork} {tr : TripleResult}
    (run : (processClarifiedConcepts defaults stack clarifiedConcepts targetModel).run heap =
      .ok tr t) : Correlated defaults heap clarifiedConcepts targetModel tr t := by
  obtain ⟨maps, none⟩ := processClarifiedConcepts_eq_ok run
  obtain ⟨_, _, read, run⟩ := run_bind_eq_ok_iff.mp run
  cases read
  obtain ⟨domainConcepts, m, created, last⟩ := run_bind_eq_ok_iff.mp run
  cases last
  have inside' : ∀ c ∈ clarifiedTargetConcepts heap clarifiedConcepts targetModel,
      c < heap.concepts.size := fun c member => inside c (List.mem_of_mem_filter member)
  obtain ⟨since, table', kept, parents⟩ := domainConcepts_created filed table inside' created
  exact ⟨since.filed, table', preserved_of_since since kept, maps, parents, none⟩

end Correlation

/-! ### What a context is made of -/

namespace CorrelationWay2Think

open Correlation

variable {heap s t : Heap} {defaults : Defaults}

theorem filed_withURI (filed : heap.Filed) (uri : KnowledgeURI) :
    Heap.Filed { heap with uris := heap.uris.alloc uri } where
  wellFormed := filed.wellFormed.withURI uri
  frames line u member := (filed.frames line u member).trans_le (Arena.Extends.alloc _ _).size
  linkFrames l u member := (filed.linkFrames l u member).trans_le (Arena.Extends.alloc _ _).size

theorem filed_withNetwork (filed : heap.Filed) (network : ConceptNetwork) :
    Heap.Filed { heap with networks := heap.networks.alloc network } :=
  ⟨{ filed.wellFormed with }, filed.frames, filed.linkFrames⟩

theorem plainTable_of_preserved (preserved : heap.Preserved t) (wf : heap.WellFormed)
    (table : PlainTable defaults heap) : PlainTable defaults t := by
  intro entry member
  obtain ⟨present, unmarked⟩ := table entry member
  have link : t.link entry.2 = heap.link entry.2 := preserved.links.get _ present
  have uri : t.uri (heap.link entry.2).uri = heap.uri (heap.link entry.2).uri :=
    preserved.uris.get _ (wf.linkUris _ present)
  rw [link, uri]
  exact ⟨present.trans_le preserved.links.size, unmarked⟩

/-- What the steps that make a context leave: new URIs and networks. -/
structure Noted (s t : Heap) : Prop where
  preserved : s.Preserved t
  filed : t.Filed
  concepts : t.concepts = s.concepts
  table : ∀ defaults, PlainTable defaults s → PlainTable defaults t

theorem Noted.trans {u : Heap} (first : Noted s t) (second : Noted t u) : Noted s u where
  preserved := first.preserved.trans second.preserved
  filed := second.filed
  concepts := second.concepts.trans first.concepts
  table defaults := second.table defaults ∘ first.table defaults

theorem Noted.refl (filed : s.Filed) : Noted s s := ⟨.refl s, filed, rfl, fun _ => id⟩

theorem noted_of_preserved (preserved : s.Preserved t) (filed : s.Filed) (filed' : t.Filed)
    (concepts : t.concepts = s.concepts) : Noted s t :=
  ⟨preserved, filed', concepts, fun _ => plainTable_of_preserved preserved filed.wellFormed⟩

theorem noted_withURI (filed : s.Filed) (uri : KnowledgeURI) :
    Noted s { s with uris := s.uris.alloc uri } :=
  noted_of_preserved { Heap.Preserved.refl s with uris := .alloc _ _ } filed
    (filed_withURI filed uri) rfl

theorem noted_withNetwork (filed : s.Filed) (network : ConceptNetwork) :
    Noted s { s with networks := s.networks.alloc network } :=
  noted_of_preserved { Heap.Preserved.refl s with networks := .alloc _ _ } filed
    (filed_withNetwork filed network) rfl

/-- A new network has the nodes it is made of. -/
theorem run_newNetwork (filed : s.Filed) (nodes : List ConceptRef) (name : String) :
    ∃ r uri t, (newNetwork nodes name).run s = .ok (r, uri) t ∧ Noted s t ∧
      r < t.networks.size ∧ (t.network r).nodes = nodes := by
  let named : Heap := { s with uris := s.uris.alloc { name } }
  let network : ConceptNetwork :=
    { nodes
      links := nodes.flatMap fun node => (named.concept node).conceptLinks
      uri := s.uris.size }
  refine ⟨s.networks.size, s.uris.size, { named with networks := named.networks.alloc network },
    rfl, (noted_withURI filed _).trans (noted_withNetwork (filed_withURI filed _) network), ?_, ?_⟩
  · rw [Arena.size_alloc]
    exact Nat.lt_succ_self _
  · exact congrArg ConceptNetwork.nodes (Arena.get_alloc_size _ _)

theorem lastResult_withNotUnderstood (notUnderstood : List ConceptRef) (context : Context) :
    (withNotUnderstood notUnderstood context).lastResult = context.lastResult := by
  rw [withNotUnderstood]
  split <;> rfl

theorem simulationModel_withNotUnderstood (notUnderstood : List ConceptRef) (context : Context) :
    (withNotUnderstood notUnderstood context).simulationModel = context.simulationModel := by
  rw [withNotUnderstood]
  split <;> rfl

/-- The context of a call: its last result has the maps behind what was known, and its model the
domain concepts behind the nodes of the model, where there are any. -/
structure Reports (known : List ConceptRef) (model : ConceptNetwork) (tr : TripleResult)
    (s : Heap) (returned : Context) (t : Heap) : Prop where
  noted : Noted s t
  lastResult : ∃ r uri, returned.lastResult = some (.conceptNetwork r uri) ∧
    (t.network r).nodes = known ++ tr.1
  noModel : tr.2.1 = [] → returned.simulationModel = none
  newModel : tr.2.1 ≠ [] → ∃ m, returned.simulationModel = some m ∧ m < t.networks.size ∧
    (t.network m).nodes = model.nodes ++ tr.2.1

theorem run_outputContext (filed : s.Filed) (known : List ConceptRef) (model : ConceptNetwork)
    (name : String) (tr : TripleResult) : ∃ returned t,
      (outputContext known model name tr).run s = .ok returned t ∧
        Reports known model tr s returned t := by
  obtain ⟨r, uri, m, made, noted, present, nodes⟩ :=
    run_newNetwork filed (known ++ tr.1) (className ++ name ++ "result")
  let context : Context := ContextHelper.ofLastResult [] (.conceptNetwork r uri)
  by_cases none : tr.2.1 = []
  · have same : (withUpdatedModel model tr.2.1 context).run m = .ok context m := by
      rw [withUpdatedModel, none]
      rfl
    refine ⟨withNotUnderstood tr.2.2 context, m, ?_, noted, ⟨r, uri, ?_, nodes⟩, fun _ => ?_,
      fun some => absurd none some⟩
    · exact run_bind_eq_ok_iff.mpr ⟨_, _, made, run_bind_eq_ok_iff.mpr ⟨_, _, same, rfl⟩⟩
    · exact lastResult_withNotUnderstood ..
    · exact simulationModel_withNotUnderstood ..
  · obtain ⟨r', uri', m', made', noted', present', nodes'⟩ :=
      run_newNetwork noted.filed (model.nodes ++ tr.2.1) (className ++ "Model" ++ "result")
    let u : Heap := { m' with uris := m'.uris.alloc { name := understoodConceptsName } }
    let reporting : Context :=
      { context with
        simulationModel := some r'
        resultToReport := context.resultToReport.add m'.uris.size ⟨tr.2.1, m'.uris.size⟩ }
    have updated : (withUpdatedModel model tr.2.1 context).run m = .ok reporting u := by
      rw [withUpdatedModel, if_pos (List.length_pos_iff.mpr none)]
      exact run_bind_eq_ok_iff.mpr ⟨_, _, made', rfl⟩
    refine ⟨withNotUnderstood tr.2.2 reporting, u, ?_,
      (noted.trans noted').trans (noted_withURI noted'.filed _), ⟨r, uri, ?_, ?_⟩,
      fun empty => absurd empty none, fun _ => ⟨r', ?_, present', nodes'⟩⟩
    · exact run_bind_eq_ok_iff.mpr ⟨_, _, made, run_bind_eq_ok_iff.mpr ⟨_, _, updated, rfl⟩⟩
    · exact lastResult_withNotUnderstood ..
    · have kept : u.network r = m.network r := noted'.preserved.networks.get r present
      rw [kept, nodes]
    · exact simulationModel_withNotUnderstood ..

/-! ### What is returned -/

/-- The concepts of the simulation result that the model does not know. -/
def unknown (heap : Heap) (result model : NetworkRef) : List ConceptRef :=
  heap.filterConceptListNegative (heap.network result).nodes (heap.network model)

variable {stack : ℕ} {narrativeOf : Resource → Option AnnotatedNarrative}
  {context returned : Context} {narrative : AnnotatedNarrative} {model result : NetworkRef}

/-- The concepts that a call looks for: what the result has and the model does not know, as far as
the narrative has it, or the whole narrative. -/
def clarified (heap : Heap) (context : Context) (narrative : AnnotatedNarrative)
    (model : NetworkRef) : List ConceptRef :=
  match context.simulationResult with
  | some result =>
      heap.filterConceptList (unknown heap result model) (heap.conceptNetworkOf narrative)
  | none => heap.conceptsOfNarrative narrative

/-- The nodes that the last result of a call starts with. -/
def knownNodes (heap : Heap) (context : Context) : List ConceptRef :=
  context.simulationResult.elim [] fun result => (heap.network result).nodes

theorem run_of_adaptExcept_eq_ok {ε ε' σ α : Type} {f : ε → ε'} {p : EStateM ε σ α} {s t : σ}
    {a : α} (run : (EStateM.adaptExcept f p).run s = .ok a t) : p.run s = .ok a t := by
  rw [EStateM.run, EStateM.adaptExcept] at run
  change p s = .ok a t
  cases ran : p s with
  | ok b u =>
    rw [ran] at run
    cases run
    rfl
  | error e u =>
    rw [ran] at run
    cases run

/-- A call that returns has its narrative and its model, and something to look for. -/
theorem run_apply_eq_ok
    (run : (apply defaults stack narrativeOf context).run heap = .ok returned t) :
    ∃ narrative model, narrativeIn narrativeOf heap context = some narrative ∧
      context.simulationModel = some model ∧
      (∀ result, context.simulationResult = some result → unknown heap result model ≠ []) ∧
      ∃ name tr s, (processClarifiedConcepts defaults stack (clarified heap context narrative model)
          (heap.network model)).run heap = .ok tr s ∧
        (outputContext (knownNodes heap context) (heap.network model) name tr).run s =
          .ok returned t := by
  obtain ⟨_, _, read, run⟩ := run_bind_eq_ok_iff.mp run
  cases read
  cases found : context.findByName (objectsOf heap) linkParserResultName with
  | none =>
    rw [found] at run
    cases run
  | some resource =>
    rw [found] at run
    dsimp only at run
    cases narrated : narrativeOf resource with
    | none =>
      rw [narrated] at run
      cases run
    | some narrative =>
      have inContext : narrativeIn narrativeOf heap context = some narrative := by
        rw [narrativeIn, found, Option.bind_some, narrated]
      rw [narrated] at run
      dsimp only at run
      cases hasModel : context.simulationModel with
      | none =>
        rw [hasModel] at run
        cases run
      | some model =>
        rw [hasModel] at run
        dsimp only at run
        refine ⟨narrative, model, inContext, rfl, ?_⟩
        cases hasResult : context.simulationResult with
        | some result =>
          rw [hasResult] at run
          obtain ⟨answer, s, applied, run⟩ := run_bind_eq_ok_iff.mp run
          obtain ⟨_, _, read, applied⟩ :=
            run_bind_eq_ok_iff.mp (run_of_adaptExcept_eq_ok applied)
          cases read
          dsimp only at applied
          split at applied
          case isTrue some =>
            obtain ⟨tr, s', processed, last⟩ := run_bind_eq_ok_iff.mp applied
            cases last
            obtain ⟨_, _, read, processed⟩ := run_bind_eq_ok_iff.mp processed
            cases read
            refine ⟨?_, "Simulation", tr, s, ?_, ?_⟩
            · rintro _ ⟨⟩
              exact List.length_pos_iff.mp some
            · rw [clarified, hasResult]
              exact processed
            · rw [knownNodes, hasResult]
              exact run
          case isFalse =>
            cases applied
            cases run
        | none =>
          rw [hasResult] at run
          obtain ⟨answer, s, applied, run⟩ := run_bind_eq_ok_iff.mp run
          obtain ⟨tr, s', processed, last⟩ :=
            run_bind_eq_ok_iff.mp (run_of_adaptExcept_eq_ok applied)
          cases last
          obtain ⟨_, _, read, processed⟩ := run_bind_eq_ok_iff.mp processed
          cases read
          refine ⟨nofun, "Training", tr, s, ?_, ?_⟩
          · rw [clarified, hasResult]
            exact processed
          · rw [knownNodes, hasResult]
            exact run

/-- A call with a narrative, a model and something to look for returns, unless the creation of
domain concepts raises an exception. -/
theorem exists_run_apply (inContext : narrativeIn narrativeOf heap context = some narrative)
    (hasModel : context.simulationModel = some model)
    (asks : ∀ result, context.simulationResult = some result → unknown heap result model ≠ [])
    {tr : TripleResult} (filed : s.Filed)
    (processed : (processClarifiedConcepts defaults stack (clarified heap context narrative model)
      (heap.network model)).run heap = .ok tr s) :
    ∃ returned t, (apply defaults stack narrativeOf context).run heap = .ok returned t := by
  obtain ⟨resource, found, narrated⟩ := Option.bind_eq_some_iff.mp inContext
  cases hasResult : context.simulationResult with
  | some result =>
    rw [clarified, hasResult] at processed
    obtain ⟨returned, t, run, -⟩ := run_outputContext filed (heap.network result).nodes
      (heap.network model) "Simulation" tr
    have applied : (Correlation.apply defaults stack narrative (heap.network result)
        (heap.network model)).run heap = .ok (some tr) s := by
      have some : (heap.filterConceptListNegative (heap.network result).nodes
          (heap.network model)).length > 0 := List.length_pos_iff.mpr (asks result hasResult)
      refine run_bind_eq_ok_iff.mpr ⟨heap, heap, rfl, ?_⟩
      dsimp only
      rw [if_pos some]
      exact run_bind_eq_ok_iff.mpr
        ⟨tr, s, run_bind_eq_ok_iff.mpr ⟨heap, heap, rfl, processed⟩, rfl⟩
    refine ⟨returned, t, run_bind_eq_ok_iff.mpr ⟨heap, heap, rfl, ?_⟩⟩
    rw [found]
    dsimp only
    rw [narrated, hasModel]
    dsimp only
    rw [hasResult]
    exact run_bind_eq_ok_iff.mpr ⟨_, _, run_adaptExcept_of_ok _ applied, run⟩
  | none =>
    rw [clarified, hasResult] at processed
    obtain ⟨returned, t, run, -⟩ := run_outputContext filed [] (heap.network model) "Training" tr
    have applied : (Correlation.applyClarification defaults stack narrative
        (heap.network model)).run heap = .ok (some tr) s :=
      run_bind_eq_ok_iff.mpr
        ⟨tr, s, run_bind_eq_ok_iff.mpr ⟨heap, heap, rfl, processed⟩, rfl⟩
    refine ⟨returned, t, run_bind_eq_ok_iff.mpr ⟨heap, heap, rfl, ?_⟩⟩
    rw [found]
    dsimp only
    rw [narrated, hasModel]
    dsimp only
    rw [hasResult]
    exact run_bind_eq_ok_iff.mpr ⟨_, _, run_adaptExcept_of_ok _ applied, run⟩

end CorrelationWay2Think

end ThinkingUnderstanding
