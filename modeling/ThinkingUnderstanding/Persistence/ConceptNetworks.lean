import ThinkingUnderstanding.Persistence.ConceptLinks
import ThinkingUnderstanding.Persistence.ConceptTotality
import ThinkingUnderstanding.Persistence.ReadChildren

/-!
# Networks of concepts that are saved and loaded

A network is saved with its nodes, and each of these with the concepts and phrases that it refers
to. It is loaded by following the relationships of the nodes of the knowledge base, whichever way
they point, and by their keys, the texts of URIs. The links of the network are saved as nodes
of their own, without their ends, and are read back as links between copies of these nodes.

So a network is restored when it has no links, when the children of every concept are told
apart by their texts, and when contents have the name for their value.

## Main definitions

* `NetworkRestored` — the network that is loaded is the one that was saved
* `NetworkAlwaysRoundTrips` — saving and loading restores it, however relationships are enumerated
* `NetworkStorable` — what is saved is told apart, and what is stored can be read
* `NetworkWritable` — besides, there is a place for it
* `NetworkRestorable` — when it is restored

## Main results

* `NetworkStorable.exists_run` — the network is saved
* `NetworkStorable.loadable` — what is read with it can be loaded
* `NetworkStorable.exists_run_loadAt` — it can be loaded itself
* `NetworkStorable.loaded_of_run` — what has been loaded when it is
-/

namespace ThinkingUnderstanding

open Math Semantics

/-! ### What it is to be restored -/

/-- A concept that is loaded is made of the node of one that was saved. It has the same name,
content and probability, and the same generalisations and specialisations. -/
structure ConceptRestored (s t w : World) (c c' : ConceptRef) : Prop where
  reloaded : Reloaded s t w c c'
  name : (w.heap.uri (w.heap.concept c').uri).name = (s.heap.uri (s.heap.concept c).uri).name
  content : (w.heap.concept c').content = (s.heap.concept c).content
  probability : (w.heap.concept c').probability = (s.heap.concept c).probability
  generalisations : Multiset.Rel (Reloaded s t w) (s.heap.generalisations c).values
    (w.heap.generalisations c').values
  specialisations : Multiset.Rel (Reloaded s t w) (s.heap.specialisations c).values
    (w.heap.specialisations c').values

/-- A link that is loaded joins the nodes that one joined that was saved, and has its name. -/
structure NetworkLinkRestored (s t w : World) (l l' : LinkRef) : Prop where
  source : Reloaded s t w (s.heap.link l).source (w.heap.link l').source
  destination : Reloaded s t w (s.heap.link l).destination (w.heap.link l').destination
  name : (w.heap.uri (w.heap.link l').uri).name = (s.heap.uri (s.heap.link l).uri).name

/-- What a resource is read with. -/
def Heap.readChildren (heap : Heap) : ResourceRef → List ResourceRef
  | .network n => (heap.network n).nodes.map .concept
  | .concept c => (heap.generalisations c).values.map .concept ++
      (heap.specialisations c).values.map .concept ++ (heap.phrasesOf c).values.map .phrase
  | .phrase p => (heap.phrase p).phrases.map .phrase
  | .link _ => []

/-- The resource is the network, or is read with it, or with what is read with it. -/
def Heap.ReadWith (heap : Heap) (n : NetworkRef) : ResourceRef → Prop :=
  Relation.ReflTransGen (fun r r' => r' ∈ heap.readChildren r) (.network n)

/-- A network that is loaded has the nodes and the links of one that was saved, and all concepts
that the nodes refer to are restored. -/
structure NetworkRestored (s t w : World) (n n' : NetworkRef) : Prop where
  nodes : Multiset.Rel (Reloaded s t w) (s.heap.network n).nodes (w.heap.network n').nodes
  concepts : ∀ c, s.heap.ReadWith n (.concept c) → ∃ c', ConceptRestored s t w c c'
  links : Multiset.Rel (NetworkLinkRestored s t w) (s.heap.network n).links
    (w.heap.network n').links

section RoundTrip

variable (platform : Platform) (stack : ℕ) (s : World) (n : NetworkRef) (parent : Option ℕ)
  (key linkType : String)

/-- The network is saved, and what a fresh process loads by the key is the network. -/
def NetworkRoundTrips : Prop :=
  ∃ t, (saveAnew platform stack (.network n) parent key linkType).run s = .ok () t ∧
    ∀ w₀, FreshProcess t w₀ → ∃ n' w,
      (ConceptNetwork.load platform stack parent key linkType).run w₀ = .ok n' w ∧
      NetworkRestored s t w n n'

/-- The network is saved and loaded, whatever order the store returns relationships in. -/
def NetworkAlwaysRoundTrips : Prop :=
  ∀ order order_perm,
    NetworkRoundTrips (platform.withOrder order order_perm) stack s n parent key linkType

/-- The plan of the save of a network. -/
def World.networkPlan : SavePlan := s.savePlan stack (rootCall (.network n) key linkType)

/-- The children of a type are told apart, in the plan of the save of a network. -/
def World.ToldApart (r : ResourceRef) (type : String) (below : List ResourceRef) : Prop :=
  (s.networkPlan stack n key linkType).Unambiguous (s.kb.getNodeById parent)
    (rootCall (.network n) key linkType) r type below

/-- The objects from which a network is saved are finitely many. -/
structure NetworkSavable (objects : List ResourceRef) : Prop where
  closed : DepthFirst.Closed s.heap.children Child.resource objects
  member : .network n ∈ objects
  deep : objects.length < stack

/-- What is saved with the network is told apart, and what is stored can be read. -/
structure NetworkStorable : Prop where
  valid : ∀ r ∈ (s.networkPlan stack n key linkType).resources, ValidUid (s.heap.uid r)
  apart : (s.networkPlan stack n key linkType).AllApart
  pass : (s.networkPlan stack n key linkType).AllPass platform
  /-- The texts that are made of the nodes are accepted. -/
  accepted : ∀ r, s.heap.ReadWith n r → platform.acceptsURI (KnowledgeURI.ofMap platform
    ⟨(s.networkPlan stack n key linkType).nodeOf r, s.heap.exported r⟩).format
  /-- The keys of the children can be read as URIs. -/
  keysRead : ∀ r, s.heap.ReadWith n r → (∀ p, r ≠ .phrase p) → ∀ child ∈ s.heap.children r,
    child.resource ≠ r → child.linkType ≠ conceptLinkDestinationName → (KnowledgeURI.ofRaw
      ((s.networkPlan stack n key linkType).relationship 0 child).key).isSome

/-- There is a place for the network, and it can be stored. -/
structure NetworkWritable : Prop extends NetworkStorable platform stack s n key linkType where
  /-- The parent is a node, and is not related to anything else with the key. -/
  present : ∀ id, parent = some id → s.kb.HasNode id
  new : ∀ rel ∈ s.kb.relationshipsOf (s.kb.getNodeById parent) linkType, rel.key ≠ key

/-- When a network is restored. -/
structure NetworkRestorable : Prop where
  unlinked : (s.heap.network n).links = []
  contents : ∀ c, s.heap.ReadWith n (.concept c) →
    (s.heap.concept c).content.value = (s.heap.concept c).content.name
  /-- Nodes, generalisations and specialisations are told apart by their texts. -/
  nodes : s.ToldApart stack n parent key linkType (.network n) nodesLinkName
    ((s.heap.network n).nodes.map .concept)
  generalisations : ∀ c, s.heap.ReadWith n (.concept c) →
    s.ToldApart stack n parent key linkType (.concept c) generalisationLinkName
      ((s.heap.generalisations c).values.map .concept)
  specialisations : ∀ c, s.heap.ReadWith n (.concept c) →
    s.ToldApart stack n parent key linkType (.concept c) specialisationLinkName
      ((s.heap.specialisations c).values.map .concept)

end RoundTrip

/-! ### Children -/

namespace Heap

variable {heap : Heap}

theorem filter_children_links (n : NetworkRef) :
    (heap.children (.network n)).filter (fun child => child.linkType = linksLinkName) =
      (heap.network n).links.map (child linksLinkName ∘ .link) := by
  change (_ ++ _ ++ _ : List Child).filter _ = _
  rw [List.filter_append, List.filter_append, filter_map_child, filter_map_child, filter_map_child,
    if_neg (by decide), if_neg (by decide), if_pos rfl, List.nil_append, List.nil_append]

/-- What is read with a resource is saved with it. -/
theorem exists_child_of_mem_readChildren {r r' : ResourceRef} (member : r' ∈ heap.readChildren r) :
    ∃ child ∈ heap.children r, child.resource = r' := by
  cases r with
  | network n =>
    obtain ⟨c, inside, rfl⟩ := List.mem_map.mp member
    exact ⟨_, List.mem_append_left _ (List.mem_append_left _ (List.mem_map_of_mem inside)), rfl⟩
  | concept c =>
    rw [readChildren, List.mem_append, List.mem_append] at member
    rcases member with (frames | frames) | frames
    all_goals obtain ⟨x, inside, rfl⟩ := List.mem_map.mp frames
    · exact ⟨_, List.mem_append_left _ (List.mem_append_left _ (List.mem_append_left _
        (List.mem_map_of_mem inside))), rfl⟩
    · exact ⟨_, List.mem_append_left _ (List.mem_append_left _ (List.mem_append_right _
        (List.mem_map_of_mem inside))), rfl⟩
    · exact ⟨_, List.mem_append_left _ (List.mem_append_right _ (List.mem_map_of_mem inside)), rfl⟩
  | phrase p =>
    obtain ⟨q, inside, rfl⟩ := List.mem_map.mp member
    exact ⟨_, List.mem_append_left _ (List.mem_map_of_mem inside), rfl⟩
  | link l => exact absurd member List.not_mem_nil

/-- What is saved as a phrase of a resource is read with it. -/
theorem phrase_of_linkType {r : ResourceRef} {child : Child} (edge : child ∈ heap.children r)
    (type : child.linkType = phrasesLinkName) :
    child.resource ∈ heap.readChildren r ∧ ∃ p, child.resource = .phrase p := by
  -- only a concept and a phrase have children of this type, and these are phrases
  have among : child ∈ (heap.children r).filter fun child => child.linkType = phrasesLinkName :=
    List.mem_filter.mpr ⟨edge, decide_eq_true type⟩
  cases r with
  | network n =>
    change child ∈ (_ ++ _ ++ _ : List Child).filter _ at among
    rw [List.filter_append, List.filter_append, filter_map_child, filter_map_child,
      filter_map_child, if_neg (by decide), if_neg (by decide), if_neg (by decide)] at among
    exact absurd among List.not_mem_nil
  | concept c =>
    change child ∈ (_ ++ _ ++ _ ++ _ : List Child).filter _ at among
    rw [List.filter_append, List.filter_append, List.filter_append, filter_map_child,
      filter_map_child, filter_map_child, filter_linkEnds (by decide) (by decide),
      if_neg (by decide), if_neg (by decide), if_pos rfl, List.append_nil, List.nil_append] at among
    obtain ⟨p, inside, rfl⟩ := List.mem_map.mp among
    exact ⟨List.mem_append_right _ (List.mem_map_of_mem inside), p, rfl⟩
  | phrase p =>
    rw [filter_children_phrases] at among
    obtain ⟨r', phrases, rfl⟩ := List.mem_map.mp among
    obtain ⟨q, inside, rfl⟩ := List.mem_map.mp phrases
    exact ⟨phrases, q, rfl⟩
  | link l => exact absurd edge List.not_mem_nil

/-- What is saved as a node, as a generalisation or as a specialisation of a resource is a concept
that is read with it. -/
theorem concept_of_linkType {r : ResourceRef} {child : Child} (edge : child ∈ heap.children r)
    (type : child.linkType ∈ [nodesLinkName, generalisationLinkName, specialisationLinkName]) :
    child.resource ∈ heap.readChildren r ∧ ∃ c, child.resource = .concept c := by
  -- one case for each loop of each `save`; the loops of other types are ruled out
  cases r with
  | network n =>
    simp only [children, networkChildren, List.mem_append, List.mem_map] at edge
    rcases edge with (⟨c, inside, rfl⟩ | ⟨c, -, rfl⟩) | ⟨l, -, rfl⟩
    · exact ⟨List.mem_map_of_mem inside, c, rfl⟩
    · change rootNodesLinkName ∈ _ at type
      exact absurd type (by decide)
    · change linksLinkName ∈ _ at type
      exact absurd type (by decide)
  | concept d =>
    simp only [children, conceptChildren, List.mem_append, List.mem_map, List.mem_flatMap,
      List.mem_cons, List.not_mem_nil, or_false] at edge
    rcases edge with ((⟨c, inside, rfl⟩ | ⟨c, inside, rfl⟩) | ⟨p, -, rfl⟩) | ⟨l, -, rfl | rfl⟩
    · exact ⟨List.mem_append_left _ (List.mem_append_left _ (List.mem_map_of_mem inside)), c, rfl⟩
    · exact ⟨List.mem_append_left _ (List.mem_append_right _ (List.mem_map_of_mem inside)), c, rfl⟩
    · change phrasesLinkName ∈ _ at type
      exact absurd type (by decide)
    · change conceptLinkSourceName ∈ _ at type
      exact absurd type (by decide)
    · change conceptLinkDestinationName ∈ _ at type
      exact absurd type (by decide)
  | phrase p =>
    simp only [children, phraseChildren, List.mem_append, List.mem_map] at edge
    rcases edge with ⟨q, -, rfl⟩ | ⟨c, -, rfl⟩
    · change phrasesLinkName ∈ _ at type
      exact absurd type (by decide)
    · change conceptLinkName ∈ _ at type
      exact absurd type (by decide)
  | link l => exact absurd edge List.not_mem_nil

theorem mem_readChildren_concept {r : ResourceRef} {c : ConceptRef}
    (member : .concept c ∈ heap.readChildren r) :
    (∃ n, r = .network n ∧ c ∈ (heap.network n).nodes) ∨
      ∃ d, r = .concept d ∧
        (c ∈ (heap.generalisations d).values ∨ c ∈ (heap.specialisations d).values) := by
  cases r with
  | network n => exact Or.inl ⟨n, rfl, by simpa [readChildren] using member⟩
  | concept d => exact Or.inr ⟨d, rfl, by simpa [readChildren] using member⟩
  | phrase p => simp [readChildren] at member
  | link l => exact absurd member List.not_mem_nil

/-- No network is read with another one. -/
theorem not_mem_readChildren_network {r : ResourceRef} {n : NetworkRef} :
    .network n ∉ heap.readChildren r := by
  cases r <;> simp [readChildren]

theorem ReadWith.network_eq {n m : NetworkRef} (read : heap.ReadWith n (.network m)) : m = n := by
  rcases Relation.ReflTransGen.cases_tail read with same | ⟨r, -, member⟩
  · exact ResourceRef.network.inj same
  · exact absurd member not_mem_readChildren_network

/-- A network without links is saved with concepts. -/
theorem plain_of_mem_children_network {n : NetworkRef} (unlinked : (heap.network n).links = [])
    {child : Child} (edge : child ∈ heap.children (.network n)) : child.resource.Plain := by
  change child ∈ (_ ++ _ ++ _ : List Child) at edge
  rw [unlinked, List.map_nil, List.append_nil, List.mem_append] at edge
  rcases edge with edge | edge
  all_goals
    obtain ⟨c, -, rfl⟩ := List.mem_map.mp edge
    exact trivial

theorem recursive_of_reaches_network {n : NetworkRef} (unlinked : (heap.network n).links = [])
    {r : ResourceRef} (reaches : DepthFirst.Reaches heap.children Child.resource (.network n) r) :
    r.Recursive := by
  rcases Relation.ReflTransGen.cases_head reaches with rfl | ⟨r', ⟨child, edge, rfl⟩, later⟩
  · exact trivial
  · exact (plain_of_mem_children_network unlinked edge).recursive_of_reaches later

end Heap

/-! ### What is stored -/

/-- By the keys of children that are told apart, their nodes are found. -/
theorem SavePlan.Stored.leadsTo_below {platform : Platform} {plan : SavePlan} {startNode : ℕ}
    {root : Child} {kb : KB} {r : ResourceRef} {type : String} {below : List ResourceRef}
    (stored : plan.Stored startNode root kb) (member : r ∈ plan.resources)
    (group : (plan.heap.children r).filter (fun child => child.linkType = type) =
      below.map (Heap.child type))
    (clear : plan.Unambiguous startNode root r type below)
    (closed : DepthFirst.Closed plan.heap.children Child.resource plan.resources)
    {property : ℕ → Prop} (holds : ∀ r' ∈ below, property (plan.nodeOf r')) :
    kb.LeadsTo platform property (plan.nodeOf r) type := by
  intro key listed
  obtain ⟨rs, perm, keys⟩ := stored.childKeys_below platform member group clear.single clear.texts
  rw [keys] at listed
  obtain ⟨r', inside, rfl⟩ := List.mem_map.mp listed
  have among := perm.mem_iff.mp inside
  exact ⟨_, stored.loadChild_below member group clear closed among, holds r' among⟩

section Nodes

variable (s : World) (stack : ℕ) (n : NetworkRef) (key linkType : String)

/-- The node of a concept that is read with the network. -/
def World.ConceptNode (id : ℕ) : Prop :=
  ∃ c, s.heap.ReadWith n (.concept c) ∧
    (s.networkPlan stack n key linkType).nodeOf (.concept c) = id

/-- The node of a phrase that is read with the network. -/
def World.PhraseNode (id : ℕ) : Prop :=
  ∃ p, s.heap.ReadWith n (.phrase p) ∧
    (s.networkPlan stack n key linkType).nodeOf (.phrase p) = id

end Nodes

section Storable

variable {platform : Platform} {stack : ℕ} {s : World} {n : NetworkRef} {parent : Option ℕ}
  {key linkType : String} {objects : List ResourceRef}
  (storable : NetworkStorable platform stack s n key linkType)
  (savable : NetworkSavable stack s n objects) (unlinked : (s.heap.network n).links = [])

namespace NetworkStorable

include storable savable unlinked

theorem sound : (s.networkPlan stack n key linkType).Sound := by
  have reaches : ∀ r, r ∈ (s.networkPlan stack n key linkType).resources ↔
      DepthFirst.Reaches s.heap.children Child.resource (.network n) r :=
    fun r => SavePlan.mem_resources_iff _ savable.closed savable.member savable.deep
  refine ⟨fun r inside e edge => ?_, fun r inside => ?_, storable.valid⟩
  · exact (reaches _).mpr (((reaches r).mp inside).tail ⟨e, edge, rfl⟩)
  · exact Heap.recursive_of_reaches_network unlinked ((reaches r).mp inside)

/-- What is read with the network is saved. -/
theorem mem_resources {r : ResourceRef} (read : s.heap.ReadWith n r) :
    r ∈ (s.networkPlan stack n key linkType).resources := by
  induction read with
  | refl => exact (SavePlan.mem_resources_iff _ savable.closed savable.member savable.deep).mpr .refl
  | tail _ member ih =>
    obtain ⟨child, edge, rfl⟩ := Heap.exists_child_of_mem_readChildren member
    exact (storable.sound savable unlinked).closed _ ih _ edge

/-- It is stored as nodes of its own. -/
theorem eq_of_nodeOf {r r' : ResourceRef} (read : s.heap.ReadWith n r)
    (same : (s.networkPlan stack n key linkType).nodeOf r =
      (s.networkPlan stack n key linkType).nodeOf r') : r = r' :=
  SavePlan.nodeOf_injOn (storable.mem_resources savable unlinked read) same

/-- The save follows its plan. -/
theorem exists_run : ∃ t, (saveAnew platform stack (.network n) parent key linkType).run s = .ok () t ∧
    (s.networkPlan stack n key linkType).Followed platform
      (s.networkPlan stack n key linkType).arrivals t ∧
    (s.networkPlan stack n key linkType).Stored (s.kb.getNodeById parent)
      (rootCall (.network n) key linkType) t.kb := by
  rcases outcome_saveAnew platform parent (storable.sound savable unlinked) savable.closed
    savable.member savable.deep with ⟨t, run, progress, -⟩ | ⟨bad, -⟩
  · exact ⟨t, run, progress.followed, progress.stored (SavePlan.nodup_resources s stack _)
      (s.kb.getNodeById parent).2 rfl⟩
  · exact absurd ⟨storable.apart, storable.pass⟩ bad

variable {kb : KB} (stored : (s.networkPlan stack n key linkType).Stored (s.kb.getNodeById parent)
  (rootCall (.network n) key linkType) kb)

include stored

theorem acceptedAt {r : ResourceRef} (read : s.heap.ReadWith n r) :
    kb.AcceptedAt platform ((s.networkPlan stack n key linkType).nodeOf r) := by
  rw [KB.AcceptedAt, stored.node (storable.mem_resources savable unlinked read)]
  exact storable.accepted r read

theorem keysReadAt {r : ResourceRef} (read : s.heap.ReadWith n r) (other : ∀ p, r ≠ .phrase p)
    {type : String} (type_ne : type ≠ conceptLinkDestinationName) :
    kb.KeysRead platform ((s.networkPlan stack n key linkType).nodeOf r) type := by
  intro text listed
  obtain ⟨child, edge, rfl, apart, rfl⟩ :=
    stored.exists_child_of_mem_childKeys (storable.mem_resources savable unlinked read) listed
  exact storable.keysRead r read other child edge apart type_ne

/-- By the keys of its children of a type, what is read with them is found, when all
children of the type are read and have the property. -/
theorem leadsTo_of_linkType {r : ResourceRef} (read : s.heap.ReadWith n r) {type : String}
    (apart : r = .network n → linkType ≠ type) (kind : ResourceRef → Prop)
    (kinds : ∀ {r child}, child ∈ s.heap.children r → child.linkType = type →
      child.resource ∈ s.heap.readChildren r ∧ kind child.resource) :
    kb.LeadsTo platform (fun id => ∃ r', s.heap.ReadWith n r' ∧ kind r' ∧
      (s.networkPlan stack n key linkType).nodeOf r' = id)
        ((s.networkPlan stack n key linkType).nodeOf r) type := by
  intro text listed
  have member := storable.mem_resources savable unlinked read
  obtain ⟨rel, planned, touches, typed, found⟩ :=
    stored.exists_loadChild_of_mem_childKeys member listed
  refine ⟨_, found, ?_⟩
  rw [kb.id_node]
  rcases touches with starts | ends
  · obtain ⟨child, edge, rfl⟩ := stored.child_of_planned member planned starts
    obtain ⟨below, holds⟩ := kinds edge typed
    exact ⟨child.resource, read.tail below, holds, rfl⟩
  · -- the relationship leads to the node itself, so the resource is such a child
    rcases List.mem_cons.mp planned with rfl | later
    · exact absurd typed (apart (storable.eq_of_nodeOf savable unlinked read ends.symm))
    · obtain ⟨e, -, edges⟩ := List.mem_flatMap.mp later
      obtain ⟨child, edge, rfl⟩ := List.mem_map.mp edges
      obtain ⟨-, holds⟩ := kinds edge typed
      have here := storable.eq_of_nodeOf savable unlinked read ends.symm
      exact ⟨r, read, here ▸ holds, congrArg _ here⟩

/-- By the keys of its phrases, phrases are found. -/
theorem leadsTo_phrases {r : ResourceRef} (read : s.heap.ReadWith n r) (other : r ≠ .network n) :
    kb.LeadsTo platform (s.PhraseNode stack n key linkType)
      ((s.networkPlan stack n key linkType).nodeOf r) phrasesLinkName := by
  intro text listed
  obtain ⟨map, found, r', read', ⟨p, rfl⟩, same⟩ := storable.leadsTo_of_linkType savable unlinked
    stored read (fun here => absurd here other) (∃ p, · = .phrase p) Heap.phrase_of_linkType text
    listed
  exact ⟨map, found, p, read', same⟩

/-- By the keys of its nodes, its generalisations or its specialisations, concepts are found. -/
theorem leadsTo_concepts {r : ResourceRef} (read : s.heap.ReadWith n r) {type : String}
    (apart : r = .network n → linkType ≠ type)
    (among : type ∈ [nodesLinkName, generalisationLinkName, specialisationLinkName]) :
    kb.LeadsTo platform (s.ConceptNode stack n key linkType)
      ((s.networkPlan stack n key linkType).nodeOf r) type := by
  intro text listed
  obtain ⟨map, found, r', read', ⟨c, rfl⟩, same⟩ := storable.leadsTo_of_linkType savable unlinked
    stored read apart (∃ c, · = .concept c)
    (fun edge typed => Heap.concept_of_linkType edge (typed ▸ among)) text listed
  exact ⟨map, found, c, read', same⟩

/-- Concepts and phrases can be made of the nodes. -/
theorem loadable : kb.Loadable platform (s.ConceptNode stack n key linkType)
    (s.PhraseNode stack n key linkType) := by
  constructor
  case apart =>
    rintro id ⟨c, read, rfl⟩ ⟨p, -, same⟩
    exact nomatch storable.eq_of_nodeOf savable unlinked read same.symm
  case conceptAccepted =>
    rintro id ⟨c, read, rfl⟩
    exact storable.acceptedAt savable unlinked stored read
  case phraseAccepted =>
    rintro id ⟨p, read, rfl⟩
    exact storable.acceptedAt savable unlinked stored read
  case generalisations =>
    rintro id ⟨c, read, rfl⟩
    exact ⟨storable.keysReadAt savable unlinked stored read (by simp) (by decide),
      storable.leadsTo_concepts savable unlinked stored read (by simp) (by simp)⟩
  case specialisations =>
    rintro id ⟨c, read, rfl⟩
    exact ⟨storable.keysReadAt savable unlinked stored read (by simp) (by decide),
      storable.leadsTo_concepts savable unlinked stored read (by simp) (by simp)⟩
  case phraseFrames =>
    rintro id ⟨c, read, rfl⟩
    exact ⟨storable.keysReadAt savable unlinked stored read (by simp) (by decide),
      storable.leadsTo_phrases savable unlinked stored read (by simp)⟩
  case links =>
    rintro id ⟨c, read, rfl⟩
    exact storable.keysReadAt savable unlinked stored read (by simp) (by decide)
  case subPhrases =>
    rintro id ⟨p, read, rfl⟩
    exact storable.leadsTo_phrases savable unlinked stored read (by simp)

omit stored in
/-- The nodes of concepts and phrases are among those of the plan. -/
theorem mem_nodes {id : ℕ}
    (read : s.ConceptNode stack n key linkType id ∨ s.PhraseNode stack n key linkType id) :
    id ∈ (s.networkPlan stack n key linkType).resources.map
      (s.networkPlan stack n key linkType).nodeOf := by
  rcases read with ⟨c, read, rfl⟩ | ⟨p, read, rfl⟩
  · exact List.mem_map_of_mem (storable.mem_resources savable unlinked read)
  · exact List.mem_map_of_mem (storable.mem_resources savable unlinked read)

omit stored in
/-- The node of the network is that of no concept and of no phrase. -/
theorem not_conceptNode_or_phraseNode :
    ¬ s.ConceptNode stack n key linkType
        ((s.networkPlan stack n key linkType).nodeOf (.network n)) ∧
      ¬ s.PhraseNode stack n key linkType
        ((s.networkPlan stack n key linkType).nodeOf (.network n)) := by
  constructor
  · rintro ⟨c, -, same⟩
    exact nomatch storable.eq_of_nodeOf savable unlinked .refl same.symm
  · rintro ⟨p, -, same⟩
    exact nomatch storable.eq_of_nodeOf savable unlinked .refl same.symm

omit storable unlinked stored in
/-- The stack is deeper than there are objects, so it is deeper than there are nodes. -/
theorem unloaded_lt (w₀ : World) : w₀.unloaded ((s.networkPlan stack n key linkType).resources.map
    (s.networkPlan stack n key linkType).nodeOf) < stack := by
  let plan := s.networkPlan stack n key linkType
  have few : plan.resources.length ≤ objects.length :=
    ((SavePlan.nodup_resources s stack _).subperm fun r inside =>
      savable.closed.mem_of_reaches savable.member
        ((SavePlan.mem_resources_iff _ savable.closed savable.member savable.deep).mp inside)).length_le
  have bound : w₀.unloaded (plan.resources.map plan.nodeOf) ≤ plan.resources.length :=
    List.countP_le_length.trans (List.length_map _).le
  exact Nat.lt_of_le_of_lt (bound.trans few) savable.deep

/-- The network can be loaded from its node, when its nodes are found to be concepts. -/
theorem exists_run_loadAt (nodes : kb.LeadsTo platform (s.ConceptNode stack n key linkType)
      ((s.networkPlan stack n key linkType).nodeOf (.network n)) nodesLinkName) {w₀ : World}
    (same : w₀.kb = kb) (empty : ∀ id, w₀.id2object id = none) :
    ∃ n' w, (ConceptNetwork.loadAt platform stack
      ⟨(s.networkPlan stack n key linkType).nodeOf (.network n),
        s.heap.exported (.network n)⟩).run w₀ = .ok n' w := by
  have sorted : w₀.Sorted (s.ConceptNode stack n key linkType)
      (s.PhraseNode stack n key linkType) :=
    ⟨fun id _ r taken => absurd taken (by simp [empty]),
      fun id _ r taken => absurd taken (by simp [empty])⟩
  exact (storable.loadable savable unlinked stored).exists_run_loadAt
    (fun id => storable.mem_nodes savable unlinked) same sorted (unloaded_lt savable w₀)
    (storable.accepted _ .refl) (empty _)
    (storable.not_conceptNode_or_phraseNode savable unlinked)
    (storable.keysReadAt savable unlinked stored .refl (by simp) (by decide)) nodes
    (storable.keysReadAt savable unlinked stored .refl (by simp) (by decide))

end NetworkStorable

include savable storable in
/-- Where the condition holds, it can. -/
theorem NetworkRestorable.exists_run_loadAt
    (restorable : NetworkRestorable stack s n parent key linkType) {kb : KB}
    (stored : (s.networkPlan stack n key linkType).Stored (s.kb.getNodeById parent)
      (rootCall (.network n) key linkType) kb) {w₀ : World} (same : w₀.kb = kb)
    (empty : ∀ id, w₀.id2object id = none) :
    ∃ n' w, (ConceptNetwork.loadAt platform stack
      ⟨(s.networkPlan stack n key linkType).nodeOf (.network n),
        s.heap.exported (.network n)⟩).run w₀ = .ok n' w := by
  have unlinked := restorable.unlinked
  refine storable.exists_run_loadAt savable unlinked stored ?_ same empty
  refine stored.leadsTo_below (storable.mem_resources savable unlinked .refl)
    (Heap.filter_children_nodes n) restorable.nodes (storable.sound savable unlinked).closed
    fun r' below => ?_
  obtain ⟨c, inside, rfl⟩ := List.mem_map.mp below
  exact ⟨c, .single below, rfl⟩

section Writable

variable (writable : NetworkWritable platform stack s n parent key linkType) {kb : KB}
  (stored : (s.networkPlan stack n key linkType).Stored (s.kb.getNodeById parent)
    (rootCall (.network n) key linkType) kb)

include savable writable stored

/-- At a place of its own, the network is found. -/
theorem NetworkWritable.loadChild_network (unlinked : (s.heap.network n).links = []) :
    kb.loadChild platform parent key linkType =
      some ⟨(s.networkPlan stack n key linkType).nodeOf (.network n), s.heap.exported (.network n)⟩ :=
  stored.loadChild_root writable.present (writable.mem_resources savable unlinked .refl) rfl
    writable.new

/-- There the network can be loaded. -/
theorem NetworkRestorable.exists_run_load
    (restorable : NetworkRestorable stack s n parent key linkType) {w₀ : World}
    (same : w₀.kb = kb) (empty : ∀ id, w₀.id2object id = none) :
    ∃ n' w, (ConceptNetwork.load platform stack parent key linkType).run w₀ = .ok n' w := by
  rw [run_loadNetwork stack (same ▸ writable.loadChild_network savable stored restorable.unlinked)]
  exact restorable.exists_run_loadAt writable.toNetworkStorable savable stored same empty

end Writable

/-! ### What has been loaded -/

/-- A network has been loaded from its node in a process that has loaded nothing before. -/
structure NetworkLoaded (platform : Platform) (t w : World) (id : ℕ) (n' : NetworkRef) : Prop where
  kb : w.kb = t.kb
  complete : ∀ id c, w.id2object id = some (.concept c) → Concept.Complete platform w id c
  network : ConceptNetwork.Complete platform w id n'

include storable savable unlinked in
theorem NetworkStorable.loaded_of_run {t w₀ w : World} {n' : NetworkRef}
    (stored : (s.networkPlan stack n key linkType).Stored (s.kb.getNodeById parent)
      (rootCall (.network n) key linkType) t.kb) (fresh : FreshProcess t w₀)
    (run : (ConceptNetwork.loadAt platform stack
      ⟨(s.networkPlan stack n key linkType).nodeOf (.network n),
        s.heap.exported (.network n)⟩).run w₀ = .ok n' w) :
    NetworkLoaded platform t w ((s.networkPlan stack n key linkType).nodeOf (.network n)) n' := by
  have node := stored.node (storable.mem_resources savable unlinked .refl)
  rw [← fresh.kb] at node
  have extended := World.Extended.of_run (World.Extended.maintains_loadAt stack _) run
  rw [run_loadAt_of_new stack (storable.accepted _ .refl) (fresh.empty _)] at run
  obtain ⟨-, completes, network⟩ := completes_finishNetwork (finds_loadConcept stack) node extended
    run
  refine ⟨extended.kb.trans fresh.kb, fun id c registered => ?_, network⟩
  rcases completes.complete id c registered with old | ⟨-, complete⟩
  · rw [fresh.empty] at old
    exact nomatch old
  · exact complete

end Storable

end ThinkingUnderstanding
