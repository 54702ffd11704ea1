import ThinkingUnderstanding.LifeCycle.Training
import ThinkingUnderstanding.Persistence.Load

/-!
# The long-term memory

A model is stored under the text of its name, as a relationship from the reference node. A
model that is not found is made of the default network, one object for all names,
which is stored under the name. `LongTermMemory` then loads it; `KBAdapter` returns the
default network itself.

A merge replaces a concept in the network of a domain. It assigns to the network that is found,
and does not save it.

## Main definitions

* `LongTermMemory.someModel`, `LongTermMemory.saveModel`, `LongTermMemory.merge`
* `KBAdapter.someModel`
* `longTermMemory` — the memory as the life cycle sees it
-/

namespace ThinkingUnderstanding

open Math Semantics

/-- The part of the text of an exception that depends on data. -/
def KBFailure.text : KBFailure → String
  | .uriSyntaxException input => input
  | .numberFormatException input => input
  | .exception message => message
  | .unexpectedException message => message
  | _ => ""

/-- `case e: Exception`, which an error is not. -/
def KBFailure.isException : KBFailure → Bool
  | .stackOverflowError => false
  | _ => true

/-- `e.toString.contains("/defaultLink")`. -/
def KBFailure.mentionsDefaultLink (failure : KBFailure) : Bool :=
  (indexOf failure.text "/defaultLink").isSome

/-- Run a program, and another one when it raises an exception, from the state it left. -/
def orOnFailure {α : Type} (program : KBProgram α) (handler : KBFailure → KBProgram α) :
    KBProgram α := fun s =>
  match program.run s with
  | .ok a s' => .ok a s'
  | .error failure s' => (handler failure).run s'

variable (platform : Platform) (stack : ℕ)

/-- `Defaults.domainModelConceptNetwork`, saved under a name. -/
def saveDefault (domainModelConceptNetwork : NetworkRef) (modelName : UriRef) : KBProgram Unit := do
  let key ← uriText platform modelName
  saveAnew platform stack (.network domainModelConceptNetwork) (some KB.rootId) key defaultLinkName

/-- `ConceptNetwork.load` for a name, below the reference node. -/
def loadModel (modelName : UriRef) : KBProgram NetworkRef := do
  let key ← uriText platform modelName
  ConceptNetwork.load platform stack (some KB.rootId) key defaultLinkName

namespace LongTermMemory

/-- `LongTermMemory.someModel`, which calls itself after it has saved the default network. -/
def someModel (domainModelConceptNetwork : NetworkRef) : ℕ → UriRef → KBProgram NetworkRef
  | 0, _ => throw .stackOverflowError
  | calls + 1, modelName =>
      orOnFailure (loadModel platform stack modelName) fun e => do
        if ¬ e.isException ∨ ¬ e.mentionsDefaultLink then throw e
        saveDefault platform stack domainModelConceptNetwork modelName
        someModel domainModelConceptNetwork calls modelName

/-- `LongTermMemory.saveModel`. -/
def saveModel (modelName : UriRef) (model : NetworkRef) : KBProgram Unit := do
  let key ← uriText platform modelName
  saveAnew platform stack (.network model) (some KB.rootId) key defaultLinkName

end LongTermMemory

/-- `KBAdapter.someModel`, which catches every exception and error. -/
def KBAdapter.someModel (domainModelConceptNetwork : NetworkRef) (modelName : UriRef) :
    KBProgram NetworkRef :=
  orOnFailure (loadModel platform stack modelName) fun _ => do
    saveDefault platform stack domainModelConceptNetwork modelName
    return domainModelConceptNetwork

/-- `Concept.copy`: the destination receives the very lines and links of the source. -/
def Concept.copy (source destination : ConceptRef) : KBProgram Unit := do
  let concept := (← get).heap.concept source
  modifyConcept destination fun destination => { destination with
    generalisations := concept.generalisations
    specialisations := concept.specialisations
    phrases := concept.phrases
    conceptLinks := concept.conceptLinks }

/-- `ConceptNetwork.containsConceptByURI`. -/
def Heap.containsConceptByURI (heap : Heap) (network : NetworkRef) (uri : KnowledgeURI) : Bool :=
  (heap.network network).nodes.any fun c => (heap.uriOf c).equals uri

/-- `Concept.linkedConcepts`, without repetitions. Concepts are compared by identity: two
that are equal as case classes share their URI object, their lines and their links. -/
def Heap.linkedConcepts (heap : Heap) (c : ConceptRef) : List ConceptRef :=
  ((heap.linksOf c).map fun l => if l.destination = c then l.source else l.destination).dedup

/-- `ShortTermMemoryConceptWrapper`: a concept, and the one in the long-term memory that it is
to replace. -/
structure ShortTermMemoryConceptWrapper where
  resource : ConceptRef
  longTermMemoryConcept : ConceptRef

/-- `LongTermMemory.merge`. -/
def LongTermMemory.merge (domainModelConceptNetwork : NetworkRef)
    (updatedConcept : ShortTermMemoryConceptWrapper) (domainURI : UriRef) :
    KBProgram NetworkRef := do
  let domainModel ← KBAdapter.someModel platform stack domainModelConceptNetwork domainURI
  let copied := updatedConcept.longTermMemoryConcept
  let uri := (← get).heap.uriOf copied
  if (← get).heap.containsConceptByURI domainModel uri then
    Concept.copy updatedConcept.resource copied
    let heap := (← get).heap
    let preservedConcepts :=
      (heap.network domainModel).nodes.filter fun c => ¬ uri.equals (heap.uriOf c)
    modifyNetwork domainModel fun network => { network with
      nodes := preservedConcepts ++ [copied] ++ (heap.generalisations copied).values ++
        (heap.specialisations copied).values ++ heap.linkedConcepts copied }
  return domainModel

/-- A program of the persistence layer, as the life cycle sees it. -/
def asFailure {α : Type} (program : KBProgram α) : EStateM Failure World α := fun s =>
  match program.run s with
  | .ok a s' => .ok a s'
  | .error failure s' => .error (.runtimeException failure.text) s'

/-- The long-term memory of the life cycle. How solved issues are loaded is left open. -/
def longTermMemory (domainModelConceptNetwork : NetworkRef) (calls : ℕ)
    (solutions : EStateM Failure World (List ℕ)) : ModelMemory World where
  domainModel name :=
    asFailure (LongTermMemory.someModel platform stack domainModelConceptNetwork calls name)
  simulationModel name :=
    asFailure (LongTermMemory.someModel platform stack domainModelConceptNetwork calls name)
  reformulationModel name :=
    asFailure (LongTermMemory.someModel platform stack domainModelConceptNetwork calls name)
  solutions _ := solutions
  saveModel name model := asFailure (LongTermMemory.saveModel platform stack name model)
  nodes s network := (s.heap.network network).nodes
  setNodes network nodes s := { s with heap := { s.heap with
    networks := s.heap.networks.modify network fun network => { network with nodes := nodes } } }

end ThinkingUnderstanding
