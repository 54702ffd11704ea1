import ThinkingUnderstanding.Persistence.Load

/-!
# Loading in a fresh process

A process that has just been started has nothing in its table of objects, so that everything
is rebuilt of the nodes it is loaded from. A concept is registered as soon as its URI has been
made of the properties of its node. The concepts at the ends of the links it is given later
are copies, which are registered nowhere.

## Main definitions

* `FreshProcess` — a process with the knowledge base of another one, and an empty table
* `LoadCall`, `LoadCall.perform` — the calls of `load`
* `LoadedFrom` — what holds of the concepts that have been loaded

## Main results

* `LoadedFrom.perform` — every call of `load` keeps this so
-/

namespace ThinkingUnderstanding

open Math Semantics

/-- The second process has been started anew on the knowledge base of the first one. -/
structure FreshProcess (s w : World) : Prop where
  kb : w.kb = s.kb
  empty : ∀ id, w.id2object id = none

/-- A call of one of the `load` methods, on a stack of the given depth. -/
inductive LoadCall
  | phrase (stack : ℕ) (parent : Option ℕ) (key linkType : String)
  | concept (stack : ℕ) (parent : Option ℕ) (key linkType : String)
  | network (stack : ℕ) (parent : Option ℕ) (key linkType : String)

/-- Run a call for what it does to the state. -/
def LoadCall.perform (platform : Platform) : LoadCall → KBProgram Unit
  | phrase stack parent key linkType =>
      discard (AnnotatedPhrase.load platform stack parent key linkType)
  | concept stack parent key linkType => discard (Concept.load platform stack parent key linkType)
  | network stack parent key linkType =>
      discard (ConceptNetwork.load platform stack parent key linkType)

/-- The concepts that are registered have the URIs of their nodes, and none is an end of a link
that has been made since the process was started. -/
structure LoadedFrom (platform : Platform) (w₀ w : World) : Prop where
  kb : w.kb = w₀.kb
  grown : w₀.heap.links.size ≤ w.heap.links.size
  inside : ∀ id c, w.id2object id = some (.concept c) →
    c < w.heap.concepts.size ∧ (w.heap.concept c).uri < w.heap.uris.size
  rebuilt : ∀ id c, w.id2object id = some (.concept c) →
    (w.heap.uriOf c).equals (KnowledgeURI.ofMap platform (w₀.kb.node id))
  linked : ∀ id c, w.id2object id = some (.concept c) → ∀ l ∈ (w.heap.concept c).conceptLinks,
    w₀.heap.links.size ≤ l ∧ l < w.heap.links.size
  detached : ∀ l, w₀.heap.links.size ≤ l → l < w.heap.links.size →
    ∀ e, e = (w.heap.link l).source ∨ e = (w.heap.link l).destination →
      e < w.heap.concepts.size ∧ ∀ id, w.id2object id ≠ some (.concept e)

theorem KnowledgeURI.equals_iff {uri aUri : KnowledgeURI} : uri.equals aUri ↔
    uri.name = aUri.name ∧ uri.namespace_ = aUri.namespace_ ∧ uri.revision = aUri.revision :=
  decide_eq_true_iff

theorem KnowledgeURI.equals_rfl (uri : KnowledgeURI) : uri.equals uri :=
  KnowledgeURI.equals_iff.mpr ⟨rfl, rfl, rfl⟩

/-- The node that is found for a child is the one with its number. -/
theorem KB.node_of_loadChild {kb : KB} {platform : Platform} {parent : Option ℕ}
    {key linkType : String} {selfMap : Node}
    (found : kb.loadChild platform parent key linkType = some selfMap) :
    kb.node selfMap.id = selfMap := by
  obtain ⟨rel, -, rfl⟩ := Option.map_eq_some_iff.mp found
  rw [kb.id_node]

theorem KnowledgeURI.equals_trans {uri aUri bUri : KnowledgeURI} (first : uri.equals aUri)
    (second : aUri.equals bUri) : uri.equals bUri := by
  rw [KnowledgeURI.equals_iff] at first second ⊢
  exact ⟨first.1.trans second.1, first.2.1.trans second.2.1, first.2.2.trans second.2.2⟩

namespace LoadedFrom

section Steps

variable {platform : Platform} {w₀ w : World}

/-- At first nothing has been loaded. -/
theorem of_freshProcess {s : World} (fresh : FreshProcess s w₀) :
    LoadedFrom platform w₀ w₀ where
  kb := rfl
  grown := le_rfl
  inside id c found := by
    rw [fresh.empty id] at found
    cases found
  rebuilt id c found := by
    rw [fresh.empty id] at found
    cases found
  linked id c found := by
    rw [fresh.empty id] at found
    cases found
  detached l new inside := absurd (new.trans_lt inside) (lt_irrefl _)

/-- A step that leaves the concepts and links as they are, and the contents of the URIs. -/
theorem withHeap (loaded : LoadedFrom platform w₀ w) {heap : Heap}
    (concepts : heap.concepts = w.heap.concepts) (links : heap.links = w.heap.links)
    (uris : ∀ u < w.heap.uris.size, u < heap.uris.size ∧ (heap.uri u).equals (w.heap.uri u)) :
    LoadedFrom platform w₀ { w with heap } := by
  have concept : heap.concept = w.heap.concept := by
    funext c
    exact congrArg (fun arena => arena.get c) concepts
  have link : heap.link = w.heap.link := by
    funext l
    exact congrArg (fun arena => arena.get l) links
  -- only URIs differ, and each has kept what it is compared by
  constructor
  case kb => exact loaded.kb
  case grown => exact links ▸ loaded.grown
  case inside =>
    intro id c found
    obtain ⟨below, uri⟩ := loaded.inside id c found
    rw [concept, concepts]
    exact ⟨below, (uris _ uri).1⟩
  case rebuilt =>
    intro id c found
    have same := (uris _ (loaded.inside id c found).2).2
    rw [Heap.uriOf, concept]
    exact KnowledgeURI.equals_trans same (loaded.rebuilt id c found)
  case linked =>
    intro id c found
    rw [concept, links]
    exact loaded.linked id c found
  case detached =>
    intro l new inside
    rw [links] at inside
    rw [link, concepts]
    exact loaded.detached l new inside

theorem alloc_uri (loaded : LoadedFrom platform w₀ w) (uri : KnowledgeURI) :
    LoadedFrom platform w₀ { w with heap := { w.heap with uris := w.heap.uris.alloc uri } } := by
  apply loaded.withHeap
  · rfl
  · rfl
  · intro u inside
    rw [Arena.size_alloc, Heap.uri, Arena.get_alloc_of_lt _ inside]
    exact ⟨inside.trans (Nat.lt_succ_self _), KnowledgeURI.equals_rfl _⟩

theorem maintains_createURI (uri : KnowledgeURI) :
    Maintains (LoadedFrom platform w₀) (createURI uri) fun _ => True :=
  fun _ loaded => ⟨loaded.alloc_uri uri, fun _ _ _ => trivial⟩

theorem maintains_createRawURI (raw : String) :
    Maintains (LoadedFrom platform w₀) (createRawURI raw) fun _ => True := by
  unfold createRawURI
  cases KnowledgeURI.ofRaw raw with
  | some uri => exact maintains_createURI uri
  | none => exact maintains_throw _

/-- A step that touches neither concepts nor links nor URIs. -/
theorem others (loaded : LoadedFrom platform w₀ w)
    (conceptLines : Arena (TypedKLine ConceptRef)) (phraseLines : Arena (TypedKLine PhraseRef))
    (phrases : Arena AnnotatedPhrase) (networks : Arena ConceptNetwork) :
    LoadedFrom platform w₀
      { w with heap := { w.heap with conceptLines, phraseLines, phrases, networks } } :=
  loaded.withHeap rfl rfl fun _ inside => ⟨inside, KnowledgeURI.equals_rfl _⟩

theorem maintains_createConceptLine (frames : InsertionMap UriRef ConceptRef) :
    Maintains (LoadedFrom platform w₀) (createConceptLine frames) fun _ => True :=
  fun _ loaded => ⟨loaded.others _ _ _ _, fun _ _ _ => trivial⟩

theorem maintains_createPhraseLine (frames : InsertionMap UriRef PhraseRef) :
    Maintains (LoadedFrom platform w₀) (createPhraseLine frames) fun _ => True :=
  fun _ loaded => ⟨loaded.others _ _ _ _, fun _ _ _ => trivial⟩

theorem maintains_createPhrase (phrase : AnnotatedPhrase) :
    Maintains (LoadedFrom platform w₀) (createPhrase phrase) fun _ => True :=
  fun _ loaded => ⟨loaded.others _ _ _ _, fun _ _ _ => trivial⟩

theorem maintains_createNetwork (network : ConceptNetwork) :
    Maintains (LoadedFrom platform w₀) (createNetwork network) fun _ => True :=
  fun _ loaded => ⟨loaded.others _ _ _ _, fun _ _ _ => trivial⟩

theorem maintains_modifyPhrase (p : PhraseRef) (f : AnnotatedPhrase → AnnotatedPhrase) :
    Maintains (LoadedFrom platform w₀) (modifyPhrase p f) fun _ => True :=
  fun _ loaded => ⟨loaded.others _ _ _ _, fun _ _ _ => trivial⟩

theorem maintains_modifyNetwork (n : NetworkRef) (f : ConceptNetwork → ConceptNetwork) :
    Maintains (LoadedFrom platform w₀) (modifyNetwork n f) fun _ => True :=
  fun _ loaded => ⟨loaded.others _ _ _ _, fun _ _ _ => trivial⟩

/-- A new concept is not registered yet. -/
theorem alloc_concept (loaded : LoadedFrom platform w₀ w) (concept : Concept) :
    LoadedFrom platform w₀
      { w with heap := { w.heap with concepts := w.heap.concepts.alloc concept } } := by
  have grown : w.heap.concepts.size < (w.heap.concepts.alloc concept).size := by
    rw [Arena.size_alloc]
    exact Nat.lt_succ_self _
  have old : ∀ c < w.heap.concepts.size, (w.heap.concepts.alloc concept).get c = w.heap.concept c :=
    fun c inside => Arena.get_alloc_of_lt _ inside _
  constructor
  case kb => exact loaded.kb
  case grown => exact loaded.grown
  case inside =>
    intro id c found
    obtain ⟨inside, uri⟩ := loaded.inside id c found
    rw [Heap.concept, old c inside]
    exact ⟨inside.trans grown, uri⟩
  case rebuilt =>
    intro id c found
    rw [Heap.uriOf, Heap.concept, old c (loaded.inside id c found).1]
    exact loaded.rebuilt id c found
  case linked =>
    intro id c found
    rw [Heap.concept, old c (loaded.inside id c found).1]
    exact loaded.linked id c found
  case detached =>
    intro l new inside e isEnd
    obtain ⟨below, unregistered⟩ := loaded.detached l new inside e isEnd
    exact ⟨below.trans grown, unregistered⟩

theorem maintains_createConcept (concept : Concept) :
    Maintains (LoadedFrom platform w₀) (createConcept concept) fun _ => True :=
  fun _ loaded => ⟨loaded.alloc_concept concept, fun _ _ _ => trivial⟩

theorem maintains_ofMap (map : Node) :
    Maintains (LoadedFrom platform w₀) (Concept.ofMap platform map) fun _ => True := by
  refine (maintains_createConceptLine _).bind fun generalisations _ => ?_
  refine (maintains_createConceptLine _).bind fun specialisations _ => ?_
  refine (maintains_createPhraseLine _).bind fun phrases _ => ?_
  refine (maintains_createURI _).bind fun uri _ => ?_
  exact maintains_createConcept _

theorem maintains_loadFromCache (map : Node) :
    Maintains (LoadedFrom platform w₀) (KBMap.loadFromCache platform map) fun _ => True := by
  unfold KBMap.loadFromCache
  dsimp only
  split_ifs
  · exact maintains_get_bind fun _ _ => maintains_pure trivial
  · exact maintains_throw _

/-- The uid that a URI object gets does not count when URIs are compared. -/
theorem assign_uid (loaded : LoadedFrom platform w₀ w) (u : UriRef) (uid : String) :
    LoadedFrom platform w₀
      { w with heap := w.heap.modifyURI u fun uri => { uri with uid } } := by
  apply loaded.withHeap
  · rfl
  · rfl
  · intro v inside
    refine ⟨inside.trans_le (Arena.size_le_size_modify ..), ?_⟩
    rw [Heap.uri, Heap.modifyURI, Arena.get_modify]
    split
    case isTrue same =>
      rw [same]
      exact KnowledgeURI.equals_iff.mpr ⟨rfl, rfl, rfl⟩
    case isFalse => exact KnowledgeURI.equals_rfl _

/-- A resource that is not a concept is registered. -/
theorem maintains_register {r : ResourceRef} (other : ∀ c, r ≠ .concept c) (id : ℕ) :
    Maintains (LoadedFrom platform w₀) (KBMap.register r id) fun _ => True := by
  apply maintains_modify
  intro w loaded
  have before : ∀ id' c, Function.update w.id2object id (some r) id' = some (.concept c) →
      w.id2object id' = some (.concept c) := by
    intro id' c found
    by_cases here : id' = id
    · rw [here, Function.update_self, Option.some_inj] at found
      exact absurd found (other c)
    · rwa [Function.update_of_ne here] at found
  have assigned := loaded.assign_uid (w.heap.uriRef r) (toString id)
  exact
    { assigned with
      inside := fun id' c found => assigned.inside id' c (before id' c found)
      rebuilt := fun id' c found => assigned.rebuilt id' c (before id' c found)
      linked := fun id' c found => assigned.linked id' c (before id' c found)
      detached := fun l new inside e isEnd =>
        (assigned.detached l new inside e isEnd).imp_right
          fun unregistered id' found => unregistered id' (before id' e found) }

/-- A concept is made of a node and registered for it. -/
theorem maintains_registerNew {α : Type} {Q : α → Prop} {selfMap : Node}
    (own : w₀.kb.node selfMap.id = selfMap) {concept : UriRef → Concept}
    (uri : ∀ u, (concept u).uri = u) (unlinked : ∀ u, (concept u).conceptLinks = [])
    {rest : ConceptRef → KBProgram α}
    (continues : ∀ res, Maintains (LoadedFrom platform w₀) (rest res) Q) :
    Maintains (LoadedFrom platform w₀) (do
      let u ← createURI (KnowledgeURI.ofMap platform selfMap)
      let res ← createConcept (concept u)
      KBMap.register (.concept res) selfMap.id
      rest res) Q := by
  intro w loaded
  let res := w.heap.concepts.size
  let made : World := { w with heap := { w.heap with
    uris := w.heap.uris.alloc (KnowledgeURI.ofMap platform selfMap)
    concepts := w.heap.concepts.alloc (concept w.heap.uris.size) } }
  have first : LoadedFrom platform w₀ made := (loaded.alloc_uri _).alloc_concept _
  have same : made.heap.concept res = concept w.heap.uris.size := Arena.get_alloc_size ..
  have sameURI : made.heap.uriOf res = KnowledgeURI.ofMap platform selfMap := by
    rw [Heap.uriOf, same, uri]
    exact Arena.get_alloc_size ..
  have assigned := first.assign_uid (made.heap.uriRef (.concept res)) (toString selfMap.id)
  let registered : World :=
    { made with
      heap := made.heap.modifyURI (made.heap.uriRef (.concept res)) fun uri =>
        { uri with uid := toString selfMap.id }
      id2object := Function.update made.id2object selfMap.id (some (.concept res)) }
  -- the map differs at one number only, that of the node
  have now : ∀ id c, registered.id2object id = some (.concept c) →
      id = selfMap.id ∧ c = res ∨ w.id2object id = some (.concept c) := by
    intro id c found
    change Function.update w.id2object selfMap.id (some (.concept res)) id = _ at found
    by_cases here : id = selfMap.id
    · rw [here, Function.update_self, Option.some_inj] at found
      exact Or.inl ⟨here, (ResourceRef.concept.inj found).symm⟩
    · rw [Function.update_of_ne here] at found
      exact Or.inr found
  -- each invariant is shown of the new concept, and carried over for the others
  have second : LoadedFrom platform w₀ registered := by
    constructor
    case kb => exact loaded.kb
    case grown => exact loaded.grown
    case inside =>
      intro id c found
      rcases now id c found with ⟨-, rfl⟩ | old
      · change res < (w.heap.concepts.alloc _).size ∧ (made.heap.concept res).uri < _
        rw [same, uri, Arena.size_alloc]
        refine ⟨Nat.lt_succ_self _, lt_of_lt_of_le ?_ (Arena.size_le_size_modify ..)⟩
        change w.heap.uris.size < (w.heap.uris.alloc _).size
        rw [Arena.size_alloc]
        exact Nat.lt_succ_self _
      · exact assigned.inside id c old
    case rebuilt =>
      intro id c found
      rcases now id c found with ⟨rfl, rfl⟩ | old
      · have held : registered.heap.uriOf res = _ :=
          Arena.get_modify_self made.heap.uris (made.heap.concept res).uri
            fun uri => { uri with uid := toString selfMap.id }
        -- the number that is assigned is the one that the node holds
        change made.heap.uris.get (made.heap.concept res).uri = _ at sameURI
        rw [held, sameURI, own]
        exact KnowledgeURI.equals_iff.mpr ⟨rfl, rfl, rfl⟩
      · exact assigned.rebuilt id c old
    case linked =>
      intro id c found
      rcases now id c found with ⟨-, rfl⟩ | old
      · intro l member
        change l ∈ (made.heap.concept res).conceptLinks at member
        rw [same, unlinked] at member
        cases member
      · exact assigned.linked id c old
    case detached =>
      intro l new inside e isEnd
      obtain ⟨below, unregistered⟩ := loaded.detached l new inside e isEnd
      refine ⟨(assigned.detached l new inside e isEnd).1, fun id found => ?_⟩
      rcases now id e found with ⟨-, here⟩ | old
      · exact below.ne here
      · exact unregistered id old
  exact continues res registered second

/-! ### Links and their ends -/

/-- A new link, whose ends are not registered. -/
theorem alloc_link (loaded : LoadedFrom platform w₀ w) (link : ConceptLink)
    (ends : ∀ e, e = link.source ∨ e = link.destination →
      e < w.heap.concepts.size ∧ ∀ id, w.id2object id ≠ some (.concept e)) :
    LoadedFrom platform w₀ { w with heap := { w.heap with links := w.heap.links.alloc link } } := by
  have size : (w.heap.links.alloc link).size = w.heap.links.size + 1 := Arena.size_alloc ..
  constructor
  case kb => exact loaded.kb
  case grown => exact loaded.grown.trans (size ▸ Nat.le_succ _)
  case inside => exact loaded.inside
  case rebuilt => exact loaded.rebuilt
  case linked =>
    intro id c found l member
    obtain ⟨new, inside⟩ := loaded.linked id c found l member
    exact ⟨new, inside.trans (size ▸ Nat.lt_succ_self _)⟩
  case detached =>
    intro l new inside e isEnd
    rw [size, Nat.lt_succ_iff_lt_or_eq] at inside
    rcases inside with old | rfl
    · rw [Heap.link, Arena.get_alloc_of_lt _ old] at isEnd
      exact loaded.detached l new old e isEnd
    · rw [Heap.link, Arena.get_alloc_size] at isEnd
      exact ends e isEnd

/-- The concept that comes next has not been registered. -/
theorem unregistered (loaded : LoadedFrom platform w₀ w) {c : ConceptRef}
    (beyond : w.heap.concepts.size ≤ c) (id : ℕ) : w.id2object id ≠ some (.concept c) :=
  fun found => not_le.mpr (loaded.inside id c found).1 beyond

/-- A copy is made of a node, and registered nowhere. -/
theorem exists_run_ofMap (loaded : LoadedFrom platform w₀ w) (map : Node) :
    ∃ w', (Concept.ofMap platform map).run w = .ok w.heap.concepts.size w' ∧
      LoadedFrom platform w₀ w' ∧ w'.id2object = w.id2object ∧ w'.heap.links = w.heap.links ∧
        w'.heap.concepts.size = w.heap.concepts.size + 1 :=
  ⟨_, rfl, (maintains_ofMap map).keeps loaded, rfl, rfl, Arena.size_alloc ..⟩

theorem run_createRawURI (raw : String) (w : World) :
    (∃ u uri, (createRawURI raw).run w =
      .ok u { w with heap := { w.heap with uris := w.heap.uris.alloc uri } }) ∨
    (createRawURI raw).run w = .error .stringIndexOutOfBoundsException w := by
  unfold createRawURI
  cases KnowledgeURI.ofRaw raw with
  | some uri => exact Or.inl ⟨_, uri, rfl⟩
  | none => exact Or.inr rfl

/-- One link that is made of a node: its ends are copies, and it is new. -/
theorem createLink_copies (loaded : LoadedFrom platform w₀ w) (node : Node) (uri : String) :
    LoadedFrom platform w₀ (finalState ((do
      let source ← Concept.ofMap platform node
      let destination ← Concept.ofMap platform node
      ConceptLink.create source destination uri : KBProgram LinkRef).run w)) ∧
    ∀ l t, (do
      let source ← Concept.ofMap platform node
      let destination ← Concept.ofMap platform node
      ConceptLink.create source destination uri : KBProgram LinkRef).run w = .ok l t →
        w.heap.links.size ≤ t.heap.links.size ∧ w₀.heap.links.size ≤ l ∧
          l < t.heap.links.size := by
  obtain ⟨w₁, run₁, loaded₁, same₁, links₁, size₁⟩ := loaded.exists_run_ofMap node
  obtain ⟨w₂, run₂, loaded₂, same₂, links₂, size₂⟩ := loaded₁.exists_run_ofMap node
  -- both ends are newer than any concept that is registered
  have ends : ∀ e, e = w.heap.concepts.size ∨ e = w₁.heap.concepts.size →
      e < w₂.heap.concepts.size ∧ ∀ id, w₂.id2object id ≠ some (.concept e) := by
    intro e isEnd
    rw [same₂]
    rcases isEnd with rfl | rfl
    · rw [same₁, size₂, size₁]
      exact ⟨by omega, loaded.unregistered le_rfl⟩
    · rw [size₂]
      exact ⟨Nat.lt_succ_self _, loaded₁.unregistered le_rfl⟩
  have grown : w₂.heap.links.size = w.heap.links.size := by rw [links₂, links₁]
  rw [EStateM.run_bind, run₁]
  change LoadedFrom platform w₀ (finalState ((Concept.ofMap platform node >>= fun destination =>
      ConceptLink.create w.heap.concepts.size destination uri).run w₁)) ∧
    ∀ l t, (Concept.ofMap platform node >>= fun destination =>
      ConceptLink.create w.heap.concepts.size destination uri).run w₁ = .ok l t → _
  rw [EStateM.run_bind, run₂]
  change LoadedFrom platform w₀ (finalState ((createRawURI uri >>= fun u =>
      createLink ⟨w.heap.concepts.size, w₁.heap.concepts.size, u, {}⟩).run w₂)) ∧
    ∀ l t, (createRawURI uri >>= fun u =>
      createLink ⟨w.heap.concepts.size, w₁.heap.concepts.size, u, {}⟩).run w₂ = .ok l t → _
  rw [EStateM.run_bind]
  rcases run_createRawURI uri w₂ with ⟨u, made, run⟩ | run
  · rw [run]
    constructor
    · exact (loaded₂.alloc_uri made).alloc_link _ ends
    · intro l t ended
      cases ended
      change _ ≤ (w₂.heap.links.alloc _).size ∧ _ ≤ w₂.heap.links.size ∧
        w₂.heap.links.size < (w₂.heap.links.alloc _).size
      rw [Arena.size_alloc, grown]
      exact ⟨Nat.le_succ _, loaded.grown, Nat.lt_succ_self _⟩
  · rw [run]
    exact ⟨loaded₂, fun _ _ ended => nomatch ended⟩

/-- The links that are read are new ones. -/
theorem run_loadLinks (loaded : LoadedFrom platform w₀ w) (id : ℕ) (linkType : String) :
    LoadedFrom platform w₀ (finalState ((loadLinks platform id linkType).run w)) ∧
    ∀ links t, (loadLinks platform id linkType).run w = .ok links t →
      ∀ l ∈ links, w₀.heap.links.size ≤ l ∧ l < t.heap.links.size := by
  let map := w.kb.loadChildrenMap platform (some id) linkType
  let turn : List LinkRef → String → KBProgram (List LinkRef) := loadLink platform map
  -- the links read so far are kept in the statement, as they are returned with the others
  have loop : ∀ (keys : List String) (acc : List LinkRef) (w : World), LoadedFrom platform w₀ w →
      (∀ l ∈ acc, w₀.heap.links.size ≤ l ∧ l < w.heap.links.size) →
        LoadedFrom platform w₀ (finalState ((keys.foldlM turn acc).run w)) ∧
        ∀ links t, (keys.foldlM turn acc).run w = .ok links t →
          ∀ l ∈ links, w₀.heap.links.size ≤ l ∧ l < t.heap.links.size := by
    intro keys
    induction keys with
    | nil =>
      intro acc w loaded old
      refine ⟨loaded, fun links t ended => ?_⟩
      cases ended
      exact old
    | cons uri keys ih =>
      intro acc w loaded old
      rw [List.foldlM_cons, EStateM.run_bind]
      cases has : map.get? uri with
      | none =>
        have raised : (turn acc uri).run w = .error .nullPointerException w := by
          simp only [turn, loadLink, has]
          rfl
        rw [raised]
        refine ⟨loaded, fun _ _ ended => ?_⟩
        cases ended
      | some node =>
        -- one turn reads both ends, and conses what is made of them
        have split : turn acc uri = (do
            let source ← Concept.ofMap platform node
            let destination ← Concept.ofMap platform node
            ConceptLink.create source destination uri : KBProgram LinkRef) >>= fun l =>
              pure (l :: acc) := by
          simp only [turn, loadLink, has, bind_assoc]
        obtain ⟨kept, made⟩ := loaded.createLink_copies node uri
        rw [split, EStateM.run_bind]
        cases run : (do
            let source ← Concept.ofMap platform node
            let destination ← Concept.ofMap platform node
            ConceptLink.create source destination uri : KBProgram LinkRef).run w with
        | error e t =>
          rw [run] at kept
          refine ⟨kept, fun _ _ ended => ?_⟩
          cases ended
        | ok l t =>
          rw [run] at kept
          obtain ⟨grown, new, inside⟩ := made l t run
          apply ih (l :: acc) t kept
          rw [List.forall_mem_cons]
          exact ⟨⟨new, inside⟩, fun l' member =>
            ⟨(old l' member).1, (old l' member).2.trans_le grown⟩⟩
  exact loop _ [] w loaded fun _ none => absurd none List.not_mem_nil

theorem maintains_loadLinks (id : ℕ) (linkType : String) :
    Maintains (LoadedFrom platform w₀) (loadLinks platform id linkType) fun _ => True :=
  fun _ loaded => ⟨(loaded.run_loadLinks id linkType).1, fun _ _ _ => trivial⟩

/-- A concept gets its lines of knowledge and links that are new. -/
theorem modify_concept (loaded : LoadedFrom platform w₀ w) (c : ConceptRef)
    {f : Concept → Concept} (uri : ∀ concept, (f concept).uri = concept.uri)
    (links : ∀ concept, ∀ l ∈ (f concept).conceptLinks,
      w₀.heap.links.size ≤ l ∧ l < w.heap.links.size) :
    LoadedFrom platform w₀
      { w with heap := { w.heap with concepts := w.heap.concepts.modify c f } } := by
  -- the concept keeps its URI object, and its links may only be new ones
  have kept : ∀ d, ((w.heap.concepts.modify c f).get d).uri = (w.heap.concept d).uri := by
    intro d
    rw [Arena.get_modify]
    split
    case isTrue same => rw [uri, same, Heap.concept]
    case isFalse => rfl
  have grown := w.heap.concepts.size_le_size_modify c f
  constructor
  case kb => exact loaded.kb
  case grown => exact loaded.grown
  case inside =>
    intro id d found
    obtain ⟨inside, below⟩ := loaded.inside id d found
    rw [Heap.concept, kept]
    exact ⟨inside.trans_le grown, below⟩
  case rebuilt =>
    intro id d found
    rw [Heap.uriOf, Heap.concept, kept]
    exact loaded.rebuilt id d found
  case linked =>
    intro id d found l member
    rw [Heap.concept, Arena.get_modify] at member
    split at member
    · exact links _ l member
    · exact loaded.linked id d found l member
  case detached =>
    intro l new inside e isEnd
    obtain ⟨below, unregistered⟩ := loaded.detached l new inside e isEnd
    exact ⟨below.trans_le grown, unregistered⟩

/-- At the end of `Concept.load` the links are read and assigned. -/
theorem maintains_assignLinks (res : ConceptRef) (id : ℕ)
    {f : List LinkRef → Concept → Concept} (uri : ∀ links concept, (f links concept).uri = concept.uri)
    (links : ∀ links concept, (f links concept).conceptLinks = links) :
    Maintains (LoadedFrom platform w₀) (do
      let conceptLinkList ← loadLinks platform id conceptLinkSourceName
      modifyConcept res (f conceptLinkList)
      return some res) fun _ => True := by
  intro w loaded
  obtain ⟨kept, new⟩ := loaded.run_loadLinks id conceptLinkSourceName
  rw [EStateM.run_bind]
  cases run : (loadLinks platform id conceptLinkSourceName).run w with
  | error e t =>
    rw [run] at kept
    exact ⟨kept, fun _ _ ended => nomatch ended⟩
  | ok conceptLinkList t =>
    rw [run] at kept
    refine ⟨?_, fun _ _ _ => trivial⟩
    apply LoadedFrom.modify_concept kept res (uri conceptLinkList)
    intro concept
    rw [links]
    exact new conceptLinkList t run

/-! ### The methods -/

theorem maintains_loadFrames {τ : Type} {load : Loader τ}
    (loads : ∀ parent key linkType,
      Maintains (LoadedFrom platform w₀) (load parent key linkType) fun _ => True)
    (id : ℕ) (linkType : String) :
    Maintains (LoadedFrom platform w₀) (loadFrames platform load id linkType) fun _ => True := by
  refine maintains_get_bind fun w _ => Maintains.foldlM _ (fun uri _ acc _ => ?_) trivial
  refine (maintains_createRawURI uri).bind fun key _ => ?_
  exact (loads (some id) uri linkType).bind fun _ _ => maintains_pure trivial

theorem maintains_loadPhrase (stack : ℕ) (parent : Option ℕ) (key linkType : String) :
    Maintains (LoadedFrom platform w₀) (AnnotatedPhrase.load platform stack parent key linkType)
      fun _ => True := by
  induction stack generalizing parent key linkType with
  | zero => exact maintains_throw _
  | succ stack ih =>
    refine maintains_get_bind fun w _ => ?_
    dsimp only
    split
    · exact maintains_throw _
    · refine (maintains_loadFromCache _).bind fun found _ => ?_
      split
      · exact maintains_pure trivial
      · exact maintains_throw _
      · refine (maintains_createURI _).bind fun uri _ => ?_
        refine (maintains_createPhrase _).bind fun res _ => ?_
        refine (maintains_register (fun _ => ResourceRef.noConfusion) _).bind fun _ _ => ?_
        refine maintains_get_bind fun w _ => ?_
        refine (Maintains.mapM (Q := fun _ => True) _ fun map _ =>
          maintains_ofMap map).bind fun concepts _ => ?_
        refine (maintains_modifyPhrase res _).bind fun _ _ => ?_
        refine (Maintains.mapM (Q := fun _ => True) _ fun child _ =>
          ih _ child phrasesLinkName).bind fun phrases _ => ?_
        exact (maintains_modifyPhrase res _).bind fun _ _ => maintains_pure trivial

/-- A call of `Concept.load` where `null` is not expected. -/
theorem maintains_orNull {program : KBProgram (Option ConceptRef)}
    (loads : Maintains (LoadedFrom platform w₀) program fun _ => True) :
    Maintains (LoadedFrom platform w₀) (do
      match ← program with
      | some c => return c
      | none => throw .nullPointerException : KBProgram ConceptRef) fun _ => True := by
  refine loads.bind fun result _ => ?_
  cases result with
  | some c => exact maintains_pure trivial
  | none => exact maintains_throw _

theorem maintains_loadConcept (stack : ℕ) (parent : Option ℕ) (key linkType : String) :
    Maintains (LoadedFrom platform w₀) (Concept.load platform stack parent key linkType)
      fun _ => True := by
  induction stack generalizing parent key linkType with
  | zero => exact maintains_throw _
  | succ stack ih =>
    refine maintains_get_bind fun w loaded => ?_
    dsimp only
    split
    · exact maintains_pure trivial
    · rename_i selfMap found
      rw [loaded.kb] at found
      refine (maintains_loadFromCache _).bind fun cached _ => ?_
      split
      · exact maintains_pure trivial
      · exact maintains_throw _
      · refine maintains_registerNew (KB.node_of_loadChild found) (fun _ => rfl) (fun _ => rfl)
          fun res => ?_
        have child parent key linkType := maintains_orNull (ih parent key linkType)
        refine (maintains_loadFrames child _ _).bind fun _ _ => ?_
        refine (maintains_createConceptLine _).bind fun generalisation _ => ?_
        refine (maintains_loadFrames child _ _).bind fun _ _ => ?_
        refine (maintains_createConceptLine _).bind fun specialisation _ => ?_
        refine (maintains_loadFrames (maintains_loadPhrase stack) _ _).bind fun _ _ => ?_
        refine (maintains_createPhraseLine _).bind fun phrases _ => ?_
        exact maintains_assignLinks res _ (fun _ _ => rfl) fun _ _ => rfl

theorem maintains_loadNetwork (stack : ℕ) (parent : Option ℕ) (key linkType : String) :
    Maintains (LoadedFrom platform w₀) (ConceptNetwork.load platform stack parent key linkType)
      fun _ => True := by
  refine maintains_get_bind fun w _ => ?_
  dsimp only
  split
  · exact maintains_throw _
  · refine (maintains_loadFromCache _).bind fun cached _ => ?_
    split
    · exact maintains_pure trivial
    · exact maintains_throw _
    · refine (maintains_createURI _).bind fun uri _ => ?_
      refine (maintains_createNetwork _).bind fun res _ => ?_
      refine (maintains_register (fun _ => ResourceRef.noConfusion) _).bind fun _ _ => ?_
      refine (maintains_loadFrames (fun parent key linkType =>
        maintains_orNull (maintains_loadConcept stack parent key linkType)) _ _).bind
          fun concepts _ => ?_
      refine (maintains_loadLinks _ _).bind fun conceptLinkList _ => ?_
      exact (maintains_modifyNetwork res _).bind fun _ _ => maintains_pure trivial

/-- Whatever is loaded, the concepts that are registered have the URIs of their nodes, and are
no ends of new links. -/
theorem perform (loaded : LoadedFrom platform w₀ w) (call : LoadCall) :
    LoadedFrom platform w₀ (finalState ((call.perform platform).run w)) := by
  cases call with
  | phrase stack parent key linkType =>
    exact ((maintains_loadPhrase stack parent key linkType).bind fun _ _ =>
      maintains_pure (Q := fun _ => True) trivial).keeps loaded
  | concept stack parent key linkType =>
    exact ((maintains_loadConcept stack parent key linkType).bind fun _ _ =>
      maintains_pure (Q := fun _ => True) trivial).keeps loaded
  | network stack parent key linkType =>
    exact ((maintains_loadNetwork stack parent key linkType).bind fun _ _ =>
      maintains_pure (Q := fun _ => True) trivial).keeps loaded

end Steps

end LoadedFrom

end ThinkingUnderstanding
