import ThinkingUnderstanding.Correlation.DomainConcepts

/-!
# Operations that build the concept hierarchy

The factories of `Concept` create a concept, with or without a parent. A parent is filed among
the generalisations of its child and the child among the specialisations of its parent. Other
operations change the generalisations of concepts that exist: `generalisationsAdd`, a link
whose name contains the marker for generalisation links, and `createDomainConcepts`. The
method `copy` makes a concept use the lines of knowledge of another one.

The number a factory draws for the uid of an instance is an argument here.

## Main definitions

* `Concept.createSubConcept`, `Concept.createInstanceConcept` — the factories with a parent
* `Concept.copyInto`
* `HierarchyOperation`, `HierarchyOperation.perform` — the operations, and what they do to the heap
-/

namespace ThinkingUnderstanding

namespace Concept

/-- `new Concept(...)` with lines of knowledge of its own, where the line of generalisations
is given. -/
def construct (generalisations : TypedKLine ConceptRef) (content : KnowledgeString)
    (uri : KnowledgeURI) : GraphProgram ConceptRef := do
  let generalisationLine ← modifyGet fun heap =>
    (heap.conceptLines.size, { heap with conceptLines := heap.conceptLines.alloc generalisations })
  let specialisationLine ← newConceptLine
  let phraseLine ← newPhraseLine
  let uriObject ← modifyGet fun heap =>
    (heap.uris.size, { heap with uris := heap.uris.alloc uri })
  let concept : Concept :=
    { generalisations := some generalisationLine
      specialisations := some specialisationLine
      phrases := some phraseLine
      content
      uri := uriObject }
  modifyGet fun heap =>
    (heap.concepts.size, { heap with concepts := heap.concepts.alloc concept })

/-- `parent.specialisations + (it.uri -> it)`. -/
def specialisationsAdd (parent it : ConceptRef) : GraphProgram Unit := do
  match ((← get).concept parent).specialisations with
  | some line =>
      modify fun heap => { heap with
        conceptLines := heap.conceptLines.modify line fun l => l.add (heap.concept it).uri it }
  | none => throw .nullPointer

/-- What the factories with a parent do: the new concept files its parent, and is filed by
it. -/
def createChild (parent : ConceptRef) (content : String) (uri : KnowledgeURI) :
    GraphProgram ConceptRef := do
  let heap ← get
  let it ← construct (TypedKLine.add {} (heap.concept parent).uri parent)
    { value := content, name := content } uri
  specialisationsAdd parent it
  return it

/-- `Concept.createSubConcept(parent, name)`. -/
def createSubConcept (parent : ConceptRef) (name : String) : GraphProgram ConceptRef :=
  createChild parent name { name }

/-- `Concept.createInstanceConcept(parent)`. -/
def createInstanceConcept (parent : ConceptRef) (uid : String) : GraphProgram ConceptRef := do
  let name := ((← get).uriOf parent).name
  createChild parent name { name, uid }

/-- `Concept.createInstanceConcept(parent, content)`. -/
def createInstanceConceptOf (parent : ConceptRef) (content uid : String) :
    GraphProgram ConceptRef := do
  let name := ((← get).uriOf parent).name
  createChild parent content { name, uid }

/-- `Concept.createInstanceConcept(instanceName)`. -/
def createInstanceNamed (instanceName uid : String) : GraphProgram ConceptRef :=
  construct {} { value := instanceName, name := instanceName } { name := instanceName, uid }

/-- `Concept.copy(source, destination)`. -/
def copyInto (source destination : ConceptRef) : GraphProgram ConceptRef := do
  modify fun heap => { heap with
    concepts := heap.concepts.modify destination fun concept =>
      { concept with
        generalisations := (heap.concept source).generalisations
        specialisations := (heap.concept source).specialisations
        phrases := (heap.concept source).phrases
        conceptLinks := (heap.concept source).conceptLinks } }
  return destination

end Concept

/-- `ConceptLink(source, destination, name)`, given the URI that is made of the name. -/
def ConceptLink.construct (source destination : ConceptRef) (uri : KnowledgeURI) :
    GraphProgram LinkRef := do
  let uriObject ← modifyGet fun heap =>
    (heap.uris.size, { heap with uris := heap.uris.alloc uri })
  modifyGet fun heap =>
    (heap.links.size, { heap with links := heap.links.alloc { source, destination, uri := uriObject } })

/-- The operations that build concept hierarchies: the creation of concepts and of links
between them, and those that add generalisations. -/
inductive HierarchyOperation
  | concept (name : String)
  | instanceNamed (instanceName uid : String)
  | link (source destination : ConceptRef) (uri : KnowledgeURI)
  | createSubConcept (parent : ConceptRef) (name : String)
  | createInstanceConcept (parent : ConceptRef) (uid : String)
  | createInstanceConceptOf (parent : ConceptRef) (content uid : String)
  | linksAdd (c : ConceptRef) (link : LinkRef)
  | createSubConceptLink (parent : LinkRef) (source destination : ConceptRef) (name : String)
      (probability : Probability)
  | createDomainConcepts (mappingConceptsInstances : List ConceptRef)

namespace HierarchyOperation

/-- Run an operation for what it does to the heap. -/
def perform (defaults : Defaults) (stack : ℕ) : HierarchyOperation → GraphProgram Unit
  | concept name => discard (Concept.create name)
  | instanceNamed instanceName uid => discard (Concept.createInstanceNamed instanceName uid)
  | link source destination uri => discard (ConceptLink.construct source destination uri)
  | createSubConcept parent name => discard (Concept.createSubConcept parent name)
  | createInstanceConcept parent uid => discard (Concept.createInstanceConcept parent uid)
  | createInstanceConceptOf parent content uid =>
      discard (Concept.createInstanceConceptOf parent content uid)
  | linksAdd c l => Concept.linksAdd c l
  | createSubConceptLink parent source destination name probability =>
      discard (ConceptLink.createSubConceptLink parent source destination name probability)
  | createDomainConcepts instances =>
      discard (Correlation.createDomainConcepts defaults stack instances)

/-- The concepts and the link that an operation is given exist. -/
def Refers (heap : Heap) : HierarchyOperation → Prop
  | concept _ => True
  | instanceNamed _ _ => True
  | link source destination _ =>
      source < heap.concepts.size ∧ destination < heap.concepts.size
  | createSubConcept parent _ => parent < heap.concepts.size
  | createInstanceConcept parent _ => parent < heap.concepts.size
  | createInstanceConceptOf parent _ _ => parent < heap.concepts.size
  | linksAdd c l => c < heap.concepts.size ∧ l < heap.links.size
  | createSubConceptLink _ source destination _ _ =>
      source < heap.concepts.size ∧ destination < heap.concepts.size
  | createDomainConcepts instances => ∀ c ∈ instances, c < heap.concepts.size

end HierarchyOperation

/-- `Concept.apply(name)` is a construction without a parent. -/
theorem Concept.create_eq_construct (name : String) :
    Concept.create name =
      Concept.construct {} { value := name, name := name } { name := name ++ conceptSuffix } := rfl

end ThinkingUnderstanding
