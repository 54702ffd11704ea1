import ThinkingUnderstanding.Math.Arena
import ThinkingUnderstanding.Model.Reference

/-!
# The object graph

Concepts, phrases, links, networks and their URIs are mutable objects that refer to each
other. The heap holds the objects of each class in an arena; the typed lines of knowledge
that hang on a concept are objects too, since they are assigned and shared on their own.

A field of an object that no modelled function reads is left out. Which texts `java.net.URI`
accepts is a parameter of the programs that ask for one.

## Main definitions

* `KnowledgeURI`, `Concept`, `ConceptLink`, `AnnotatedPhrase`, `ConceptNetwork` — the
  classes of objects
* `Heap` — all objects
-/

namespace ThinkingUnderstanding

open Math

/-- A string object. The code compares namespaces with `eq`, that is by identity. -/
structure StringObject where
  object : ℕ := 0
  text : String := ""
  deriving DecidableEq, Repr, Inhabited

/-- `Constant.defaultNamespace`. -/
def defaultNamespace : StringObject := { text := "tu-project.com" }

/-- `KnowledgeURI`. The text of the URI is computed once, when it is first asked for. -/
structure KnowledgeURI where
  namespace_ : StringObject := defaultNamespace
  name : String := ""
  revision : String := "1.0"
  uid : String := ""
  /-- The text kept in `_uRI`. -/
  cached : Option String := none
  deriving DecidableEq, Repr, Inhabited

/-- `KnowledgeString(value, name)`, the content of a concept. -/
structure KnowledgeString where
  value : String := ""
  name : String := ""
  deriving DecidableEq, Repr, Inhabited

/-- The identity of a typed line of knowledge of a concept. -/
abbrev LineRef := ℕ

/-- `Concept`. Its lines of knowledge are `null` while it is being loaded. -/
structure Concept where
  generalisations : Option LineRef := none
  specialisations : Option LineRef := none
  phrases : Option LineRef := none
  content : KnowledgeString := {}
  conceptLinks : List LinkRef := []
  uri : UriRef := 0
  probability : Probability := {}
  deriving Repr, Inhabited

/-- `ConceptLink`. -/
structure ConceptLink where
  source : ConceptRef := 0
  destination : ConceptRef := 0
  uri : UriRef := 0
  probability : Probability := {}
  deriving Repr, Inhabited

/-- The lines of knowledge of a `ConceptLink`: the links it specialises, and those that
specialise it. -/
structure LinkLines where
  generalisations : TypedKLine LinkRef := {}
  specialisations : TypedKLine LinkRef := {}
  deriving DecidableEq, Inhabited

/-- `AnnotatedPhrase`. The index is kept as the text it is exported as. -/
structure AnnotatedPhrase where
  phrases : List PhraseRef := []
  concepts : List ConceptRef := []
  uri : UriRef := 0
  probability : Probability := {}
  text : String := ""
  index : String := "0.0"
  /-- `_sentenceIndex`, a copy of the index that can be assigned. -/
  sentenceIndex : String := index
  deriving Repr, Inhabited

/-- `ConceptNetwork`. -/
structure ConceptNetwork where
  nodes : List ConceptRef := []
  links : List LinkRef := []
  uri : UriRef := 0
  probability : Probability := {}
  deriving Repr, Inhabited

/-- All objects, by class. -/
structure Heap where
  uris : Arena KnowledgeURI := .empty
  concepts : Arena Concept := .empty
  conceptLines : Arena (TypedKLine ConceptRef) := .empty
  phraseLines : Arena (TypedKLine PhraseRef) := .empty
  phrases : Arena AnnotatedPhrase := .empty
  links : Arena ConceptLink := .empty
  /-- The lines of knowledge of the links, each under the identity of its link. -/
  linkLines : Arena LinkLines := .empty
  networks : Arena ConceptNetwork := .empty
  deriving Inhabited

namespace Heap

variable (heap : Heap)

/-- The URI object of a reference. -/
def uri (uri : UriRef) : KnowledgeURI := heap.uris.get uri

/-- The concept of a reference. -/
def concept (c : ConceptRef) : Concept := heap.concepts.get c

/-- The phrase of a reference. -/
def phrase (p : PhraseRef) : AnnotatedPhrase := heap.phrases.get p

/-- The link of a reference. -/
def link (l : LinkRef) : ConceptLink := heap.links.get l

/-- The lines of knowledge of a link. -/
def linesOfLink (l : LinkRef) : LinkLines := heap.linkLines.get l

/-- The network of a reference. -/
def network (n : NetworkRef) : ConceptNetwork := heap.networks.get n

/-- `Concept.generalisations`, as the line of knowledge it holds at the moment. -/
def generalisations (c : ConceptRef) : TypedKLine ConceptRef :=
  (heap.concept c).generalisations.elim {} heap.conceptLines.get

/-- `Concept.specialisations`. -/
def specialisations (c : ConceptRef) : TypedKLine ConceptRef :=
  (heap.concept c).specialisations.elim {} heap.conceptLines.get

/-- `Concept.phrases`. -/
def phrasesOf (c : ConceptRef) : TypedKLine PhraseRef :=
  (heap.concept c).phrases.elim {} heap.phraseLines.get

/-- `Concept.links`, as link objects. -/
def linksOf (c : ConceptRef) : List ConceptLink :=
  (heap.concept c).conceptLinks.map heap.link

/-- `ConceptNetwork.getNodeByURI`: URI objects are compared by identity. -/
def getNodeByURI (network : ConceptNetwork) (aUri : UriRef) : List ConceptRef :=
  network.nodes.filter fun c => (heap.concept c).uri = aUri

variable {heap}

/-- Beyond the concepts that exist there are only default ones. -/
theorem concept_of_size_le {c : ConceptRef} (beyond : heap.concepts.size ≤ c) :
    heap.concept c = default :=
  heap.concepts.get_of_size_le c beyond

end Heap

end ThinkingUnderstanding
