import ThinkingUnderstanding.Persistence.Save

/-!
# Loading the object graph

A resource is loaded from a node as a new object, which is registered before what the node
is related to is loaded; a node that has been loaded is not loaded again. A map of
children is read from all relationships of a node that have the type, whichever end the node
is at, and a child is then looked for by its key among the same relationships.

The concepts at the ends of a link, and the concepts of a phrase, are not loaded as
nodes: each is a new concept made of the properties alone.

## Main definitions

* `KB.loadChild`, `KB.loadChildrenMap` — the methods of `N4JKB`
* `KnowledgeURI.ofMap`, `Concept.ofMap` — objects made of the properties of a node
* `KnowledgeURI.ofRaw` — a URI object made of a key
* `AnnotatedPhrase.load`, `Concept.load`, `ConceptNetwork.load` — on a stack of a given depth
-/

namespace ThinkingUnderstanding

open Math Semantics

namespace KB

variable (kb : KB) (platform : Platform)

/-- `N4JKB.loadChild`: the end of the first relationship with the key. -/
def loadChild (parent : Option ℕ) (key linkType : String) : Option Node :=
  ((platform.order (kb.relationshipsOf (kb.getNodeById parent) linkType)).find? fun rel =>
    rel.key = key).map fun rel => kb.node rel.endNode

/-- `N4JKB.loadChildrenMap`: the ends other than the node itself, by key. -/
def loadChildrenMap (parent : Option ℕ) (linkType : String) : InsertionMap String Node :=
  .ofList (((platform.order (kb.relationshipsOf (kb.getNodeById parent) linkType)).filter fun rel =>
    rel.endNode ≠ (kb.getNodeById parent : ℕ)).map fun rel => (rel.key, kb.node rel.endNode))

/-- The keys of a map of children, in the order in which they are enumerated. -/
def childKeys (parent : Option ℕ) (linkType : String) : List String :=
  platform.keyOrder (kb.loadChildrenMap platform parent linkType).keys

/-- `N4JKB.loadChildrenList`. -/
def loadChildrenList (parent : Option ℕ) (linkType : String) : List Node :=
  (kb.childKeys platform parent linkType).filterMap
    (kb.loadChildrenMap platform parent linkType).get?

end KB

/-- `new KnowledgeURI(map)`. -/
def KnowledgeURI.ofMap (platform : Platform) (map : Node) : KnowledgeURI where
  namespace_ := map.properties.namespace_.elim defaultNamespace fun text =>
    { object := platform.namespaceObject map.id, text }
  name := map.properties.uriName.getD (platform.randomName map.id)
  revision := map.properties.revision.getD "1.0"
  uid := toString map.id

/-- `new Probability(map)`. -/
def Probability.ofMap (map : Node) : Probability where
  frequency := map.properties.frequency.getD 0
  confidence := map.properties.confidence.getD 1

/-- `String.substring(beginIndex, endIndex)`, nothing when it raises an exception. -/
def substring (text : String) (beginIndex endIndex : ℕ) : Option String :=
  if beginIndex ≤ endIndex then
    some (String.ofList ((text.toList.drop beginIndex).take (endIndex - beginIndex)))
  else none

/-- `KnowledgeURI(raw, true)`, nothing when it raises an exception. A text without all three
delimiters is taken as a name. -/
def KnowledgeURI.ofRaw (raw : String) : Option KnowledgeURI := do
  match indexOf raw "/", indexOf raw "@", indexOf raw "#" with
  | some delimiter, some revisionDelimiter, some uidDelimiter =>
      let namespaceText ← substring raw 0 delimiter
      let name ← substring raw (delimiter + 1) revisionDelimiter
      let revision ← substring raw (revisionDelimiter + 1) uidDelimiter
      let uid ← substring raw (uidDelimiter + 1) raw.length
      return { namespace_ := { object := 1, text := namespaceText }
               name := replaceChar name '-' ' '
               revision
               uid }
  | _, _, _ => return { name := raw }

/-- A new URI object. -/
def createURI (uri : KnowledgeURI) : KBProgram UriRef :=
  modifyGet fun s =>
    (s.heap.uris.size, { s with heap := { s.heap with uris := s.heap.uris.alloc uri } })

/-- A new URI object for a key. -/
def createRawURI (raw : String) : KBProgram UriRef :=
  match KnowledgeURI.ofRaw raw with
  | some uri => createURI uri
  | none => throw .stringIndexOutOfBoundsException

/-- A new line of knowledge of concepts. -/
def createConceptLine (frames : InsertionMap UriRef ConceptRef) : KBProgram LineRef :=
  modifyGet fun s => (s.heap.conceptLines.size,
    { s with heap := { s.heap with conceptLines := s.heap.conceptLines.alloc { frames } } })

/-- A new line of knowledge of phrases. -/
def createPhraseLine (frames : InsertionMap UriRef PhraseRef) : KBProgram LineRef :=
  modifyGet fun s => (s.heap.phraseLines.size,
    { s with heap := { s.heap with phraseLines := s.heap.phraseLines.alloc { frames } } })

/-- A new concept. -/
def createConcept (concept : Concept) : KBProgram ConceptRef :=
  modifyGet fun s => (s.heap.concepts.size,
    { s with heap := { s.heap with concepts := s.heap.concepts.alloc concept } })

/-- A new link. -/
def createLink (link : ConceptLink) : KBProgram LinkRef :=
  modifyGet fun s =>
    (s.heap.links.size, { s with heap := { s.heap with links := s.heap.links.alloc link } })

/-- A new phrase. -/
def createPhrase (phrase : AnnotatedPhrase) : KBProgram PhraseRef :=
  modifyGet fun s => (s.heap.phrases.size,
    { s with heap := { s.heap with phrases := s.heap.phrases.alloc phrase } })

/-- A new network. -/
def createNetwork (network : ConceptNetwork) : KBProgram NetworkRef :=
  modifyGet fun s => (s.heap.networks.size,
    { s with heap := { s.heap with networks := s.heap.networks.alloc network } })

/-- Assign to a concept. -/
def modifyConcept (c : ConceptRef) (f : Concept → Concept) : KBProgram Unit :=
  modify fun s => { s with heap := { s.heap with concepts := s.heap.concepts.modify c f } }

/-- Assign to a phrase. -/
def modifyPhrase (p : PhraseRef) (f : AnnotatedPhrase → AnnotatedPhrase) : KBProgram Unit :=
  modify fun s => { s with heap := { s.heap with phrases := s.heap.phrases.modify p f } }

/-- Assign to a network. -/
def modifyNetwork (n : NetworkRef) (f : ConceptNetwork → ConceptNetwork) : KBProgram Unit :=
  modify fun s => { s with heap := { s.heap with networks := s.heap.networks.modify n f } }

variable (platform : Platform)

/-- `KBMap.loadFromCache(new KnowledgeURI(map))`. The text of the URI is asked for first. -/
def KBMap.loadFromCache (map : Node) : KBProgram (Option ResourceRef) := do
  let uri := KnowledgeURI.ofMap platform map
  if platform.acceptsURI uri.format then return (← MonadState.get).id2object map.id
  else throw (.uriSyntaxException uri.format)

theorem KBMap.run_loadFromCache {platform : Platform} {map : Node} {s : World}
    (accepted : platform.acceptsURI (KnowledgeURI.ofMap platform map).format) :
    (KBMap.loadFromCache platform map).run s = .ok (s.id2object map.id) s := by
  rw [KBMap.loadFromCache, if_pos accepted]
  rfl

/-- `new Concept(map)`. -/
def Concept.ofMap (map : Node) : KBProgram ConceptRef := do
  let generalisations ← createConceptLine .empty
  let specialisations ← createConceptLine .empty
  let phrases ← createPhraseLine .empty
  let content := map.properties.content.getD "NONAME"
  let uri ← createURI (KnowledgeURI.ofMap platform map)
  createConcept
    { generalisations := some generalisations
      specialisations := some specialisations
      phrases := some phrases
      content := { value := content, name := content }
      uri := uri
      probability := .ofMap map }

/-- `ConceptLink(source, destination, name)`. -/
def ConceptLink.create (source destination : ConceptRef) (name : String) : KBProgram LinkRef := do
  let uri ← createRawURI name
  createLink { source, destination, uri, probability := {} }

/-- The links that are read from the relationships of a type. Both ends are read from the
same map. -/
def loadLinks (id : ℕ) (linkType : String) : KBProgram (List LinkRef) := do
  let kb := (← get).kb
  let map := kb.loadChildrenMap platform (some id) linkType
  (kb.childKeys platform (some id) linkType).foldlM (fun acc uri => do
    match map.get? uri with
    | some node =>
        let source ← Concept.ofMap platform node
        let destination ← Concept.ofMap platform node
        return (← ConceptLink.create source destination uri) :: acc
    | none => throw .nullPointerException) []

/-- A turn of the loop of `loadLinks`. -/
def loadLink (map : InsertionMap String Node) (acc : List LinkRef) (uri : String) :
    KBProgram (List LinkRef) := do
  match map.get? uri with
  | some node =>
      let source ← Concept.ofMap platform node
      let destination ← Concept.ofMap platform node
      return (← ConceptLink.create source destination uri) :: acc
  | none => throw .nullPointerException

/-- A `load` method: parent, key and type of the link. -/
abbrev Loader (τ : Type) := Option ℕ → String → String → KBProgram τ

/-- The frames that are loaded from the relationships of a type, as in `oneList`. -/
def loadFrames {τ : Type} (load : Loader τ) (id : ℕ) (linkType : String) :
    KBProgram (InsertionMap UriRef τ) := do
  let kb := (← get).kb
  (kb.childKeys platform (some id) linkType).foldlM (fun acc uri => do
    let key ← createRawURI uri
    return acc.insert key (← load (some id) uri linkType)) .empty

/-- The message of the exception for a resource that is not found. -/
def notLoaded (key linkType parent : String) : String :=
  "Concept not loaded for link " ++ key ++ "/" ++ linkType ++ " for " ++ parent

/-- `AnnotatedPhrase.load`, calling `load` for the phrases it consists of. -/
def AnnotatedPhrase.loadWith (load : Loader PhraseRef) : Loader PhraseRef :=
  fun parent key linkType => do
    match (← get).kb.loadChild platform parent key linkType with
    | none => throw (.unexpectedException (notLoaded key linkType "tu.model.knowledge.KBNodeId"))
    | some selfMap =>
        match ← KBMap.loadFromCache platform selfMap with
        | some (.phrase p) => return p
        | some _ => throw .classCastException
        | none =>
            let uri ← createURI (KnowledgeURI.ofMap platform selfMap)
            let res ← createPhrase
              { uri := uri
                probability := .ofMap selfMap
                text := selfMap.properties.text.getD ""
                index := selfMap.properties.index.getD "0.0" }
            KBMap.register (.phrase res) selfMap.id
            let kb := (← get).kb
            let concepts ← (kb.loadChildrenList platform (some selfMap.id) conceptLinkName).mapM
              (Concept.ofMap platform)
            modifyPhrase res fun phrase => { phrase with concepts := concepts }
            let phrases ← (kb.childKeys platform (some selfMap.id) phrasesLinkName).mapM fun child =>
              load (some selfMap.id) child phrasesLinkName
            modifyPhrase res fun phrase => { phrase with phrases := phrases }
            return res

/-- `AnnotatedPhrase.load`, on a stack of the given depth. -/
def AnnotatedPhrase.load : ℕ → Loader PhraseRef
  | 0 => fun _ _ _ => throw .stackOverflowError
  | stack + 1 => AnnotatedPhrase.loadWith platform (AnnotatedPhrase.load stack)

/-- `Concept.load`, calling `loadConcept` and `loadPhrase` for what the concept refers to.
A concept that is not found is `null`. -/
def Concept.loadWith (loadConcept : Loader (Option ConceptRef)) (loadPhrase : Loader PhraseRef) :
    Loader (Option ConceptRef) :=
  fun parent key linkType => do
    match (← get).kb.loadChild platform parent key linkType with
    | none => return none
    | some selfMap =>
        match ← KBMap.loadFromCache platform selfMap with
        | some (.concept c) => return some c
        | some _ => throw .classCastException
        | none =>
            let name := selfMap.properties.content.getD ""
            let uri ← createURI (KnowledgeURI.ofMap platform selfMap)
            let res ← createConcept
              { content := { value := name, name := name }, uri := uri
                probability := .ofMap selfMap }
            KBMap.register (.concept res) selfMap.id
            -- a child is not `null`: its key is that of a relationship
            let child : Loader ConceptRef := fun parent key linkType => do
              match ← loadConcept parent key linkType with
              | some c => return c
              | none => throw .nullPointerException
            let generalisation ←
              createConceptLine (← loadFrames platform child selfMap.id generalisationLinkName)
            let specialisation ←
              createConceptLine (← loadFrames platform child selfMap.id specialisationLinkName)
            let phrases ← createPhraseLine (← loadFrames platform loadPhrase selfMap.id phrasesLinkName)
            let conceptLinkList ← loadLinks platform selfMap.id conceptLinkSourceName
            modifyConcept res fun concept => { concept with
              generalisations := some generalisation
              specialisations := some specialisation
              phrases := some phrases
              conceptLinks := conceptLinkList }
            return some res

/-- `Concept.load`, on a stack of the given depth. -/
def Concept.load : ℕ → Loader (Option ConceptRef)
  | 0 => fun _ _ _ => throw .stackOverflowError
  | stack + 1 =>
      Concept.loadWith platform (Concept.load stack) (AnnotatedPhrase.load platform stack)

/-- `ConceptNetwork.load`, on a stack of the given depth. -/
def ConceptNetwork.load (stack : ℕ) : Loader NetworkRef :=
  fun parent key linkType => do
    match (← get).kb.loadChild platform parent key linkType with
    | none =>
        throw (.unexpectedException (notLoaded key linkType (parent.elim "-1" toString)))
    | some selfMap =>
        match ← KBMap.loadFromCache platform selfMap with
        | some (.network n) => return n
        | some _ => throw .classCastException
        | none =>
            let uri ← createURI (KnowledgeURI.ofMap platform selfMap)
            let res ← createNetwork { uri := uri, probability := .ofMap selfMap }
            KBMap.register (.network res) selfMap.id
            let child : Loader ConceptRef := fun parent key linkType => do
              match ← Concept.load platform stack parent key linkType with
              | some c => return c
              | none => throw .nullPointerException
            let concepts ← loadFrames platform child selfMap.id nodesLinkName
            let conceptLinkList ← loadLinks platform selfMap.id linksLinkName
            modifyNetwork res fun network => { network with
              nodes := concepts.values
              links := conceptLinkList }
            return res

/-- What `ConceptNetwork.load` does with the node that it has found. -/
def ConceptNetwork.loadAt (stack : ℕ) (selfMap : Node) : KBProgram NetworkRef := do
  match ← KBMap.loadFromCache platform selfMap with
  | some (.network n) => return n
  | some _ => throw .classCastException
  | none =>
      let uri ← createURI (KnowledgeURI.ofMap platform selfMap)
      let res ← createNetwork { uri := uri, probability := .ofMap selfMap }
      KBMap.register (.network res) selfMap.id
      let child : Loader ConceptRef := fun parent key linkType => do
        match ← Concept.load platform stack parent key linkType with
        | some c => return c
        | none => throw .nullPointerException
      let concepts ← loadFrames platform child selfMap.id nodesLinkName
      let conceptLinkList ← loadLinks platform selfMap.id linksLinkName
      modifyNetwork res fun network => { network with
        nodes := concepts.values
        links := conceptLinkList }
      return res

/-- A network is loaded from the node that is found. -/
theorem ConceptNetwork.load_eq (platform : Platform) (stack : ℕ) (parent : Option ℕ)
    (key linkType : String) :
    ConceptNetwork.load platform stack parent key linkType = (do
      match (← get).kb.loadChild platform parent key linkType with
      | none =>
          throw (.unexpectedException (notLoaded key linkType (parent.elim "-1" toString)))
      | some selfMap => ConceptNetwork.loadAt platform stack selfMap) := rfl

end ThinkingUnderstanding
