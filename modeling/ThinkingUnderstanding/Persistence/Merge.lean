import Mathlib.Data.List.Dedup
import ThinkingUnderstanding.Persistence.Isolation

/-!
# Merging an update into a domain model

`LongTermMemory.merge` gives the concept of the long-term memory the lines and links of the
update, and appends it to the other nodes of the domain model, with all its neighbours
after it. It takes out the nodes that have the URI of the concept, and none that have the URI
of a neighbour: a neighbour that is in the model is there twice, and with each further merge
of the same update once more.

## Main definitions

* `Heap.neighbours` — the concepts an update brings along
* `Heap.merged` — the object graph after a merge
* `InMemory` — a domain model that has been loaded
* `MergesOnce` — the merge adds the neighbours once, and the same merge again changes nothing

## Main results

* `inMemory_of_loaded` — a domain model that is loaded is found in memory from then on
* `run_merge` — a merge, computed
* `Heap.distinctURIs_mergedNodes_iff`, `Heap.mergedNodes_merged` — the nodes after one merge,
  and after two
* `mergesOnce_iff` — when a merge adds its neighbours once
-/

namespace ThinkingUnderstanding

open Math Semantics

theorem KnowledgeURI.equals_comm (uri aUri : KnowledgeURI) :
    uri.equals aUri = aUri.equals uri := by
  simp only [KnowledgeURI.equals, eq_comm]

/-- A concept with the lines and links of another one. -/
def Concept.withContent (source destination : Concept) : Concept :=
  { destination with
    generalisations := source.generalisations
    specialisations := source.specialisations
    phrases := source.phrases
    conceptLinks := source.conceptLinks }

namespace Heap

variable (heap : Heap) (updatedConcept : ShortTermMemoryConceptWrapper) (model : NetworkRef)

/-- The generalisations, specialisations and linked concepts of a concept. -/
def neighbours (c : ConceptRef) : List ConceptRef :=
  (heap.generalisations c).values ++ (heap.specialisations c).values ++ heap.linkedConcepts c

/-- The URIs of the concepts differ by content. -/
def DistinctURIs (cs : List ConceptRef) : Prop :=
  cs.Pairwise fun c d => ¬ (heap.uriOf c).equals (heap.uriOf d)

/-- What `Concept.copy` makes of the object graph. -/
def withCopy : Heap :=
  { heap with
    concepts := heap.concepts.modify updatedConcept.longTermMemoryConcept
      (Concept.withContent (heap.concept updatedConcept.resource)) }

/-- The nodes that a merge keeps. -/
def preservedConcepts : List ConceptRef :=
  (heap.network model).nodes.filter fun c =>
    ¬ (heap.uriOf updatedConcept.longTermMemoryConcept).equals (heap.uriOf c)

/-- The nodes that a merge leaves. -/
def mergedNodes : List ConceptRef :=
  heap.preservedConcepts updatedConcept model ++ updatedConcept.longTermMemoryConcept ::
    (heap.withCopy updatedConcept).neighbours updatedConcept.longTermMemoryConcept

/-- What a merge makes of the object graph. -/
def merged : Heap :=
  { heap.withCopy updatedConcept with
    networks := heap.networks.modify model fun network =>
      { network with nodes := heap.mergedNodes updatedConcept model } }

end Heap

/-- The network has been loaded under the text of the name, and the table of objects has it. -/
structure InMemory (platform : Platform) (s : World) (name : UriRef) (model : NetworkRef)
    (selfMap : Node) : Prop where
  text : (s.heap.uri name).cached = some (s.heap.uri name).text
  stored : s.kb.loadChild platform (some KB.rootId) (s.heap.uri name).text defaultLinkName =
    some selfMap
  accepted : platform.acceptsURI (KnowledgeURI.ofMap platform selfMap).format
  registered : s.id2object selfMap.id = some (.network model)

/-- What a merge should make of a model: its old nodes, with the new content of the concept, and
the neighbours of the update, each once. -/
structure NodesOnce (updatedConcept : ShortTermMemoryConceptWrapper) (model : NetworkRef)
    (before after : Heap) : Prop where
  content : after.concept updatedConcept.longTermMemoryConcept =
    Concept.withContent (before.concept updatedConcept.resource)
      (before.concept updatedConcept.longTermMemoryConcept)
  among : ∀ c ∈ (after.network model).nodes, c = updatedConcept.longTermMemoryConcept ∨
    c ∈ before.preservedConcepts updatedConcept model ∨
      c ∈ before.neighbours updatedConcept.resource
  complete : ∀ c ∈ (before.network model).nodes ++ before.neighbours updatedConcept.resource,
    ∃ d ∈ (after.network model).nodes, (after.uriOf d).equals (after.uriOf c)
  once : after.DistinctURIs (after.network model).nodes

/-- Merging the update makes the model what it should be, and merging it again changes
nothing. The model is `model`, and `s₀` the state in which it has been found. -/
def MergesOnce (platform : Platform) (stack : ℕ) (domainModelConceptNetwork : NetworkRef)
    (updatedConcept : ShortTermMemoryConceptWrapper) (domainURI : UriRef) (model : NetworkRef)
    (s s₀ : World) : Prop :=
  let merge :=
    LongTermMemory.merge platform stack domainModelConceptNetwork updatedConcept domainURI
  ∃ s₁, merge.run s = .ok model s₁ ∧ NodesOnce updatedConcept model s₀.heap s₁.heap ∧
    merge.run s₁ = .ok model s₁

/-! ### The domain model -/

section InMemory

variable {platform : Platform} {stack : ℕ} {domainModelConceptNetwork : NetworkRef}
  {s s₀ : World} {name : UriRef} {model : NetworkRef} {selfMap : Node}

/-- A domain model that has been loaded is in memory. -/
theorem inMemory_of_loaded (run : (loadModel platform stack name).run s = .ok model s₀) :
    ∃ selfMap, InMemory platform s₀ name model selfMap := by
  obtain ⟨key, m, asked, loaded⟩ := run_bind_eq_ok_iff.mp run
  obtain ⟨selfMap, stored, accepted, registered, -⟩ := run_loadNetwork_eq_ok loaded
  have loads : m.Loads s₀ := by
    have extended := World.Extended.of_run
      (World.Extended.maintains_loadNetwork stack (some KB.rootId) key defaultLinkName) loaded
    exact extended.loads
  have cached : (s₀.heap.uri name).cached = some key :=
    loads.heap.uris name key (run_uriText_eq_ok asked).2
  have text : (s₀.heap.uri name).text = key := by rw [KnowledgeURI.text, cached, Option.getD_some]
  refine ⟨selfMap, ?_, ?_, accepted, registered⟩
  · rw [text, cached]
  · rw [loads.kb, text, stored]

/-- It is found there again, and nothing is changed by looking it up. -/
theorem InMemory.run_someModel (inMemory : InMemory platform s name model selfMap) :
    (KBAdapter.someModel platform stack domainModelConceptNetwork name).run s = .ok model s := by
  have asked : (uriText platform name).run s = .ok (s.heap.uri name).text s := by
    simp only [uriText, EStateM.run_bind, EStateM.run_get, inMemory.text]
    rfl
  have loading : (loadModel platform stack name).run s = .ok model s := by
    rw [loadModel, EStateM.run_bind, asked]
    simp only [ConceptNetwork.load, EStateM.run_bind, EStateM.run_get, inMemory.stored,
      KBMap.run_loadFromCache inMemory.accepted, inMemory.registered]
    rfl
  rw [KBAdapter.someModel, run_orOnFailure, loading]

end InMemory

/-! ### The nodes after a merge -/

section Merged

variable {heap : Heap} {updatedConcept : ShortTermMemoryConceptWrapper} {model : NetworkRef}

namespace Heap

theorem concept_withCopy (c : ConceptRef) :
    (heap.withCopy updatedConcept).concept c =
      if c = updatedConcept.longTermMemoryConcept then
        Concept.withContent (heap.concept updatedConcept.resource)
          (heap.concept updatedConcept.longTermMemoryConcept)
      else heap.concept c :=
  heap.concepts.get_modify ..

/-- The URIs are those from before. -/
@[simp] theorem uriOf_withCopy (c : ConceptRef) :
    (heap.withCopy updatedConcept).uriOf c = heap.uriOf c := by
  have same : ((heap.withCopy updatedConcept).concept c).uri = (heap.concept c).uri := by
    rw [concept_withCopy]
    split
    case isTrue here => rw [here, Concept.withContent]
    case isFalse => rfl
  exact congrArg heap.uri same

@[simp] theorem uriOf_merged (c : ConceptRef) :
    (heap.merged updatedConcept model).uriOf c = heap.uriOf c := by
  change (heap.withCopy updatedConcept).uriOf c = _
  exact uriOf_withCopy c

@[simp] theorem nodes_merged : ((heap.merged updatedConcept model).network model).nodes =
    heap.mergedNodes updatedConcept model :=
  congrArg ConceptNetwork.nodes (heap.networks.get_modify_self model fun network =>
    { network with nodes := heap.mergedNodes updatedConcept model })

/-- Copying a second time changes nothing. -/
theorem withCopy_merged : (heap.merged updatedConcept model).withCopy updatedConcept =
    heap.merged updatedConcept model := by
  have twice :
      Concept.withContent ((heap.withCopy updatedConcept).concept updatedConcept.resource) ∘
        Concept.withContent (heap.concept updatedConcept.resource) =
        Concept.withContent (heap.concept updatedConcept.resource) := by
    funext destination
    rw [concept_withCopy]
    split <;> rfl
  have same := heap.concepts.modify_modify updatedConcept.longTermMemoryConcept
    (Concept.withContent (heap.concept updatedConcept.resource))
    (Concept.withContent ((heap.withCopy updatedConcept).concept updatedConcept.resource))
  rw [twice] at same
  exact congrArg (fun concepts => ({ heap.merged updatedConcept model with concepts } : Heap)) same

/-- The nodes after a second merge: the neighbours are there once more. -/
theorem mergedNodes_merged :
    (heap.merged updatedConcept model).mergedNodes updatedConcept model =
      heap.preservedConcepts updatedConcept model ++
        ((heap.withCopy updatedConcept).neighbours updatedConcept.longTermMemoryConcept).filter
          (fun c => ¬ (heap.uriOf updatedConcept.longTermMemoryConcept).equals (heap.uriOf c)) ++
        updatedConcept.longTermMemoryConcept ::
          (heap.withCopy updatedConcept).neighbours updatedConcept.longTermMemoryConcept := by
  have preserved : (heap.merged updatedConcept model).preservedConcepts updatedConcept model =
      heap.preservedConcepts updatedConcept model ++
        ((heap.withCopy updatedConcept).neighbours updatedConcept.longTermMemoryConcept).filter
          fun c => ¬ (heap.uriOf updatedConcept.longTermMemoryConcept).equals (heap.uriOf c) := by
    have self : (heap.uriOf updatedConcept.longTermMemoryConcept).equals
        (heap.uriOf updatedConcept.longTermMemoryConcept) := by simp [KnowledgeURI.equals]
    simp only [preservedConcepts, nodes_merged, uriOf_merged, mergedNodes, List.filter_append,
      List.filter_filter, Bool.and_self, List.filter_cons, self, not_true_eq_false, decide_false,
      Bool.false_eq_true, if_false]
  rw [mergedNodes, preserved, withCopy_merged]
  rfl

/-- A merge changes nothing more exactly when no neighbour has another URI than the concept. -/
theorem mergedNodes_merged_eq_iff :
    (heap.merged updatedConcept model).mergedNodes updatedConcept model =
        heap.mergedNodes updatedConcept model ↔
      ∀ c ∈ (heap.withCopy updatedConcept).neighbours updatedConcept.longTermMemoryConcept,
        (heap.uriOf updatedConcept.longTermMemoryConcept).equals (heap.uriOf c) := by
  rw [mergedNodes_merged, mergedNodes, List.append_left_inj, List.append_right_eq_self,
    List.filter_eq_nil_iff]
  simp only [decide_not, Bool.not_eq_true', decide_eq_false_iff_not, not_not]

/-- The nodes that are kept differ from the concept and from each other. -/
theorem distinctURIs_preservedConcepts (updatedConcept : ShortTermMemoryConceptWrapper)
    (distinct : heap.DistinctURIs (heap.network model).nodes) :
    heap.DistinctURIs (heap.preservedConcepts updatedConcept model) ∧
      ∀ c ∈ heap.preservedConcepts updatedConcept model,
        ¬ (heap.uriOf c).equals (heap.uriOf updatedConcept.longTermMemoryConcept) := by
  refine ⟨distinct.filter _, fun c member => ?_⟩
  have other := of_decide_eq_true (List.mem_filter.mp member).2
  rwa [KnowledgeURI.equals_comm] at other

/-- After a first merge the nodes have distinct URIs exactly when the neighbours have, and are
new to the model. -/
theorem distinctURIs_mergedNodes_iff (distinct : heap.DistinctURIs (heap.network model).nodes) :
    heap.DistinctURIs (heap.mergedNodes updatedConcept model) ↔
      heap.DistinctURIs ((heap.withCopy updatedConcept).neighbours
        updatedConcept.longTermMemoryConcept) ∧
      ∀ d ∈ (heap.withCopy updatedConcept).neighbours updatedConcept.longTermMemoryConcept,
        ∀ c ∈ updatedConcept.longTermMemoryConcept :: heap.preservedConcepts updatedConcept model,
          ¬ (heap.uriOf c).equals (heap.uriOf d) := by
  obtain ⟨kept, others⟩ := distinctURIs_preservedConcepts updatedConcept distinct
  rw [DistinctURIs, mergedNodes, List.pairwise_append, List.pairwise_cons]
  simp only [List.mem_cons, forall_eq_or_imp]
  constructor
  · rintro ⟨-, ⟨fromConcept, among⟩, fromKept⟩
    exact ⟨among, fun d member => ⟨fromConcept d member, fun c old => (fromKept c old).2 d member⟩⟩
  · rintro ⟨among, new⟩
    refine ⟨kept, ⟨fun d member => (new d member).1, among⟩, fun c old => ⟨others c old, ?_⟩⟩
    exact fun d member => (new d member).2 c old

/-- If the nodes stay the same, so does everything. -/
theorem merged_merged (same : (heap.merged updatedConcept model).mergedNodes updatedConcept model =
      heap.mergedNodes updatedConcept model) :
    (heap.merged updatedConcept model).merged updatedConcept model =
      heap.merged updatedConcept model := by
  have twice := heap.networks.modify_modify model
    (fun network => { network with nodes := heap.mergedNodes updatedConcept model })
    fun network => { network with nodes := heap.mergedNodes updatedConcept model }
  rw [merged, withCopy_merged, same]
  exact congrArg (fun networks => ({ heap.withCopy updatedConcept with networks } : Heap)) twice

theorem linkedConcepts_eq_nil_iff {c : ConceptRef} :
    heap.linkedConcepts c = [] ↔ (heap.concept c).conceptLinks = [] := by
  rw [linkedConcepts, List.dedup_eq_nil, List.map_eq_nil_iff, linksOf, List.map_eq_nil_iff]

/-- A copy has neighbours exactly when the update has: the other ends of the links may be
different ones, since the concept is the end of none of them. -/
theorem neighbours_withCopy_eq_nil_iff :
    (heap.withCopy updatedConcept).neighbours updatedConcept.longTermMemoryConcept = [] ↔
      heap.neighbours updatedConcept.resource = [] := by
  have concept : (heap.withCopy updatedConcept).concept updatedConcept.longTermMemoryConcept =
      Concept.withContent (heap.concept updatedConcept.resource)
        (heap.concept updatedConcept.longTermMemoryConcept) :=
    (concept_withCopy _).trans (if_pos rfl)
  simp only [neighbours, List.append_eq_nil_iff, linkedConcepts_eq_nil_iff, generalisations,
    specialisations, concept]
  rfl

end Heap

variable {platform : Platform} {stack : ℕ} {domainModelConceptNetwork : NetworkRef}
  {s s₀ : World} {domainURI : UriRef}

/-- A merge into a model that has the concept. -/
theorem run_merge (found : (KBAdapter.someModel platform stack domainModelConceptNetwork
      domainURI).run s = .ok model s₀)
    (contains : s₀.heap.containsConceptByURI model
      (s₀.heap.uriOf updatedConcept.longTermMemoryConcept)) :
    (LongTermMemory.merge platform stack domainModelConceptNetwork updatedConcept domainURI).run s =
      .ok model { s₀ with heap := s₀.heap.merged updatedConcept model } := by
  have preserved : s₀.heap.preservedConcepts updatedConcept model =
      (s₀.heap.network model).nodes.filter fun c =>
        ¬ (s₀.heap.uriOf updatedConcept.longTermMemoryConcept).equals
          ((s₀.heap.withCopy updatedConcept).uriOf c) := by
    simp only [Heap.uriOf_withCopy]
    rfl
  rw [LongTermMemory.merge, EStateM.run_bind, found]
  simp only [EStateM.run_bind, EStateM.run_get, if_pos contains]
  rw [Heap.merged, Heap.mergedNodes, preserved, List.append_cons, Heap.neighbours,
    ← List.append_assoc, ← List.append_assoc]
  rfl

/-- The merged model is found in memory as the model was. -/
theorem InMemory.merged {selfMap : Node} (inMemory : InMemory platform s domainURI model selfMap) :
    InMemory platform { s with heap := s.heap.merged updatedConcept model } domainURI model
      selfMap :=
  { inMemory with }

theorem containsConceptByURI_merged :
    (heap.merged updatedConcept model).containsConceptByURI model
      ((heap.merged updatedConcept model).uriOf updatedConcept.longTermMemoryConcept) := by
  rw [Heap.containsConceptByURI, Heap.nodes_merged, List.any_eq_true]
  refine ⟨updatedConcept.longTermMemoryConcept, ?_, by simp [KnowledgeURI.equals]⟩
  exact List.mem_append_right _ List.mem_cons_self

/-- What is there after a merge of an update without neighbours. -/
theorem nodesOnce_of_neighbours_eq_nil
    (distinct : heap.DistinctURIs (heap.network model).nodes)
    (none : heap.neighbours updatedConcept.resource = []) :
    NodesOnce updatedConcept model heap (heap.merged updatedConcept model) := by
  have nodes : heap.mergedNodes updatedConcept model =
      heap.preservedConcepts updatedConcept model ++ [updatedConcept.longTermMemoryConcept] := by
    rw [Heap.mergedNodes, Heap.neighbours_withCopy_eq_nil_iff.mpr none]
  refine ⟨(Heap.concept_withCopy _).trans (if_pos rfl), fun c member => ?_, fun c member => ?_, ?_⟩
  · rw [Heap.nodes_merged, nodes, List.mem_append, List.mem_singleton] at member
    exact member.symm.imp_right Or.inl
  · rw [none, List.append_nil] at member
    simp only [Heap.nodes_merged, Heap.uriOf_merged, nodes]
    by_cases same : (heap.uriOf updatedConcept.longTermMemoryConcept).equals (heap.uriOf c)
    · exact ⟨_, List.mem_append_right _ (List.mem_singleton_self _), same⟩
    · refine ⟨c, List.mem_append_left _ (List.mem_filter.mpr ⟨member, ?_⟩), ?_⟩
      · exact decide_eq_true same
      · simp [KnowledgeURI.equals]
  · simp only [Heap.DistinctURIs, Heap.nodes_merged, Heap.uriOf_merged, nodes]
    obtain ⟨kept, others⟩ := Heap.distinctURIs_preservedConcepts updatedConcept distinct
    refine List.pairwise_append.mpr ⟨kept, List.pairwise_singleton _ _, fun c member d last => ?_⟩
    rw [List.mem_singleton.mp last]
    exact others c member

/-- Merging again into a model in memory. -/
theorem InMemory.run_merge_again {selfMap : Node}
    (inMemory : InMemory platform s domainURI model selfMap) :
    (LongTermMemory.merge platform stack domainModelConceptNetwork updatedConcept domainURI).run
        { s with heap := s.heap.merged updatedConcept model } =
      .ok model
        { s with heap := (s.heap.merged updatedConcept model).merged updatedConcept model } :=
  run_merge inMemory.merged.run_someModel containsConceptByURI_merged

/-- An update that is merged once has no neighbours. -/
theorem neighbours_eq_nil_of_mergesOnce {selfMap : Node}
    (found : (KBAdapter.someModel platform stack domainModelConceptNetwork domainURI).run s =
      .ok model s₀)
    (inMemory : InMemory platform s₀ domainURI model selfMap)
    (contains : s₀.heap.containsConceptByURI model
      (s₀.heap.uriOf updatedConcept.longTermMemoryConcept))
    (merges : MergesOnce platform stack domainModelConceptNetwork updatedConcept domainURI model
      s s₀) : s₀.heap.neighbours updatedConcept.resource = [] := by
  obtain ⟨s₁, run, right, again⟩ := merges
  rw [run_merge found contains] at run
  cases run
  rw [inMemory.run_merge_again] at again
  have same := congrArg (fun w : World => (w.heap.network model).nodes)
    (EStateM.Result.ok.inj again).2
  simp only [Heap.nodes_merged] at same
  -- what is not added again has the URI of the concept, which is there once
  have alike := Heap.mergedNodes_merged_eq_iff.mp same
  have once := right.once
  simp only [Heap.DistinctURIs, Heap.nodes_merged, Heap.uriOf_merged, Heap.mergedNodes] at once
  have apart := (List.pairwise_cons.mp (List.pairwise_append.mp once).2.1).1
  apply Heap.neighbours_withCopy_eq_nil_iff.mp
  exact List.eq_nil_iff_forall_not_mem.mpr fun c member => apart c member (alike c member)

/-- A merge adds the neighbours of an update once, and nothing when it is repeated, exactly
when the update has no neighbours. -/
theorem mergesOnce_iff {selfMap : Node}
    (found : (KBAdapter.someModel platform stack domainModelConceptNetwork domainURI).run s =
      .ok model s₀)
    (inMemory : InMemory platform s₀ domainURI model selfMap)
    (distinct : s₀.heap.DistinctURIs (s₀.heap.network model).nodes)
    (contains : s₀.heap.containsConceptByURI model
      (s₀.heap.uriOf updatedConcept.longTermMemoryConcept)) :
    MergesOnce platform stack domainModelConceptNetwork updatedConcept domainURI model s s₀ ↔
      s₀.heap.neighbours updatedConcept.resource = [] := by
  refine ⟨neighbours_eq_nil_of_mergesOnce found inMemory contains, fun none => ?_⟩
  have same : (s₀.heap.merged updatedConcept model).mergedNodes updatedConcept model =
      s₀.heap.mergedNodes updatedConcept model := by
    rw [Heap.mergedNodes_merged_eq_iff, Heap.neighbours_withCopy_eq_nil_iff.mpr none]
    exact List.forall_mem_nil _
  refine ⟨_, run_merge found contains, nodesOnce_of_neighbours_eq_nil distinct none, ?_⟩
  rw [inMemory.run_merge_again, Heap.merged_merged same]

end Merged

/-! ### A parent -/

section Example

/-- A domain model with one concept, a concept without neighbours, and one with a parent. -/
def beforeLearning : World where
  heap :=
    { uris := .ofList [{ name := "domain" }, { name := "model" }, { name := "Program" },
        { name := "Update" }, { name := "Child" }, { name := "Parent" }]
      concepts := .ofList [{ uri := 2 }, { uri := 3 },
        { uri := 4, generalisations := some 0 }, { uri := 5 }]
      conceptLines := .ofList [({} : TypedKLine ConceptRef).add 5 3]
      networks := .ofList [{ uri := 1, nodes := [0] }] }
  kb := .onlyRoot
  id2object _ := none

/-- The domain model has been stored. -/
def modelStored : World :=
  finalState ((LongTermMemory.saveModel .plain 4 0 0).run beforeLearning)

/-- The domain model has been looked up. -/
def modelFound : World := finalState ((KBAdapter.someModel .plain 4 0 0).run modelStored)

theorem found_model : (KBAdapter.someModel .plain 4 0 0).run modelStored = .ok 0 modelFound :=
  eq_ok_of_returned (by decide +kernel)

theorem inMemory_model : ∃ selfMap, InMemory .plain modelFound 0 0 selfMap := by
  have loaded : (loadModel .plain 4 0).run modelStored =
      .ok 0 (finalState ((loadModel .plain 4 0).run modelStored)) :=
    eq_ok_of_returned (by decide +kernel)
  have same : modelFound = finalState ((loadModel .plain 4 0).run modelStored) := by
    rw [modelFound, KBAdapter.someModel, run_orOnFailure, loaded]
  rw [same]
  exact inMemory_of_loaded loaded

/-- An update without neighbours is merged once. -/
theorem lone_update_merged_once : MergesOnce .plain 4 0 ⟨1, 0⟩ 0 0 modelStored modelFound := by
  obtain ⟨selfMap, inMemory⟩ := inMemory_model
  refine (mergesOnce_iff found_model inMemory ?_ ?_).mpr ?_
  · unfold Heap.DistinctURIs
    decide +kernel
  · decide +kernel
  · decide +kernel

/-- The parent of an update is there twice after the second merge. -/
theorem parent_merged_twice : ¬ MergesOnce .plain 4 0 ⟨2, 0⟩ 0 0 modelStored modelFound := by
  obtain ⟨selfMap, inMemory⟩ := inMemory_model
  intro merges
  have none := neighbours_eq_nil_of_mergesOnce found_model inMemory (by decide +kernel) merges
  exact absurd none (by decide +kernel)

end Example

end ThinkingUnderstanding
