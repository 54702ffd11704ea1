import ThinkingUnderstanding.Model.Generalisation

/-!
# Domain concepts for the instances of a clarification

`Correlation.createDomainConcepts` creates a parent concept for every instance and turns
some of the instances into links. It changes the object graph and can raise an exception.

The map `Defaults.reduceLinks` is looked up by the concept object itself.

## Main definitions

* `Defaults` — the tables of `Defaults` that the reduction of links reads
* `createDomainConcepts`, `reduceLinks`, `createLinkFromConcept` — the methods of
  `Correlation`
-/

namespace ThinkingUnderstanding

open Math

/-- Why a change of the object graph ends with an exception. -/
inductive GraphFailure
  | unexpectedException (message : String)
  | nullPointer
  | stackOverflow
  deriving DecidableEq, Repr

/-- A method that changes the object graph. -/
abbrev GraphProgram (α : Type) := EStateM GraphFailure Heap α

/-- The tables and names of `Defaults` read by `Correlation`. -/
structure Defaults where
  reduceLinks : List (ConceptRef × LinkRef)
  objectLinkName : String := "obj"
  subjectLinkName : String := "subj"

/-- `Defaults.reductionConceptLinks`. -/
def Defaults.reductionConceptLinks (defaults : Defaults) : List String :=
  [defaults.objectLinkName, defaults.subjectLinkName]

/-- `String.indexOf(pattern)`, nothing when the pattern does not occur. -/
def indexOf (text pattern : String) : Option ℕ :=
  (List.range (text.length + 1)).find? fun i => pattern.toList.isPrefixOf (text.toList.drop i)

/-- `String.substring(0, end)`. -/
def substringTo (text : String) (endIndex : ℕ) : String :=
  String.ofList (text.toList.take endIndex)

/-- `Constant.UID_INSTANCE_DELIMITER`. -/
def uidInstanceDelimiter : String := "&ID="

/-- `Constant.conceptSuffix`. -/
def conceptSuffix : String := "Concept"

/-- `Constant.GENERALISATION_LINK_NAME`. -/
def generalisationLinkName : String := "generalisationLink"

namespace Concept

/-- `KnowledgeURI(name)`, as a new object. -/
def newURI (name : String) : GraphProgram UriRef :=
  modifyGet fun heap => (heap.uris.size, { heap with uris := heap.uris.alloc { name } })

/-- A new line of knowledge without frames. -/
def newConceptLine : GraphProgram LineRef :=
  modifyGet fun heap =>
    (heap.conceptLines.size, { heap with conceptLines := heap.conceptLines.alloc {} })

/-- A new line of knowledge of phrases without frames. -/
def newPhraseLine : GraphProgram LineRef :=
  modifyGet fun heap =>
    (heap.phraseLines.size, { heap with phraseLines := heap.phraseLines.alloc {} })

/-- `Concept.apply(name)`. -/
def create (name : String) : GraphProgram ConceptRef := do
  let generalisations ← newConceptLine
  let specialisations ← newConceptLine
  let phrases ← newPhraseLine
  let uri ← newURI (name ++ conceptSuffix)
  let concept : Concept :=
    { generalisations := some generalisations
      specialisations := some specialisations
      phrases := some phrases
      content := { value := name, name := name }
      uri := uri }
  modifyGet fun heap =>
    (heap.concepts.size, { heap with concepts := heap.concepts.alloc concept })

/-- `c.links = links`. -/
def setLinks (c : ConceptRef) (links : List LinkRef) : GraphProgram Unit :=
  modify fun heap => { heap with
    concepts := heap.concepts.modify c fun concept => { concept with conceptLinks := links } }

/-- Change the line of generalisations of a concept. -/
def modifyGeneralisations (c : ConceptRef)
    (f : TypedKLine ConceptRef → TypedKLine ConceptRef) : GraphProgram Unit := do
  match ((← get).concept c).generalisations with
  | some line =>
      modify fun heap => { heap with conceptLines := heap.conceptLines.modify line f }
  | none => throw .nullPointer

/-- `Concept.generalisationsAdd`, and `c.generalisations + (concept.uri -> concept)`. -/
def generalisationsAdd (c concept : ConceptRef) : GraphProgram Unit := do
  let uri := ((← get).concept concept).uri
  modifyGeneralisations c fun line => line.add uri concept

/-- `c.generalisations = concepts`. -/
def setGeneralisations (c : ConceptRef) (concepts : List ConceptRef) : GraphProgram Unit := do
  let heap ← get
  modifyGeneralisations c fun _ =>
    { frames := .ofList (concepts.map fun g => ((heap.concept g).uri, g)) }

/-- `Concept.linksAdd`. -/
def linksAdd (c : ConceptRef) (link : LinkRef) : GraphProgram Unit := do
  let heap ← get
  setLinks c ((heap.concept c).conceptLinks ++ [link])
  if (indexOf (heap.uri (heap.link link).uri).name generalisationLinkName).isSome then
    generalisationsAdd c (heap.link link).destination

end Concept

/-- The lines of knowledge of the links when a new one has its parent among its
generalisations, and is among the specialisations of its parent. -/
def Heap.filedUnder (heap : Heap) (parent it : LinkRef) : Arena LinkLines :=
  let generalisations := TypedKLine.add {} (heap.link parent).uri parent
  (heap.linkLines.modify it fun _ => { generalisations }).modify parent fun lines =>
    { lines with specialisations := lines.specialisations.add (heap.link it).uri it }

/-- `parent.specialisations = parent.specialisations + (it.uri -> it)`, for a new link. -/
def ConceptLink.fileUnder (parent it : LinkRef) : GraphProgram Unit :=
  modify fun heap => { heap with linkLines := heap.filedUnder parent it }

/-- `ConceptLink.createSubConceptLink`. -/
def ConceptLink.createSubConceptLink (parent : LinkRef) (source destination : ConceptRef)
    (name : String) (probability : Probability) : GraphProgram LinkRef := do
  let uri ← Concept.newURI name
  let link : ConceptLink := { source, destination, uri, probability }
  let it ← modifyGet fun heap =>
    (heap.links.size, { heap with links := heap.links.alloc link })
  ConceptLink.fileUnder parent it
  Concept.linksAdd source it
  Concept.linksAdd destination it
  return it

namespace Correlation

variable (defaults : Defaults)

/-- `Correlation.processLinksSources` and `Correlation.processLinksDestinations`, which
take the source or the destination of the links they choose. -/
def processLinks (linkEnd : ConceptLink → ConceptRef) (conceptLinks : List ConceptLink) :
    GraphProgram (ConceptRef × ConceptRef) := do
  let heap ← get
  let sources := conceptLinks.filter fun cL => (heap.uri cL.uri).name = defaults.subjectLinkName
  let destinations :=
    conceptLinks.filter fun cL => (heap.uri cL.uri).name = defaults.objectLinkName
  match sources, destinations with
  | source :: _, destination :: _ => return (linkEnd source, linkEnd destination)
  | _, _ => throw (.unexpectedException "$Not_enough_links")

/-- `Correlation.processSourcesDestinations`. -/
def processSourcesDestinations (sources destinations : List ConceptLink) :
    GraphProgram (ConceptRef × ConceptRef) :=
  match sources, destinations with
  | source :: _, destination :: _ => pure (source.source, destination.destination)
  | _ :: _ :: _, _ => processLinks defaults ConceptLink.source sources
  | _, _ :: _ :: _ => processLinks defaults ConceptLink.destination destinations
  | _, _ => throw (.unexpectedException "$Not_enough_links")

/-- `Correlation.createLinkFromConcept`. -/
def createLinkFromConcept (concept : ConceptRef) (link : LinkRef) : GraphProgram LinkRef := do
  let heap ← get
  let reducible := fun cL : ConceptLink =>
    (heap.uri cL.uri).name ∈ defaults.reductionConceptLinks
  let destinations := (heap.linksOf concept).filter fun cL =>
    (heap.uriOf cL.destination).name ≠ (heap.uriOf concept).name ∧ reducible cL
  let sources := (heap.linksOf concept).filter fun cL =>
    (heap.uriOf cL.source).name ≠ (heap.uriOf concept).name ∧ reducible cL
  let sourcesDestination ← processSourcesDestinations defaults sources destinations
  if sources.length + destinations.length < 1 then
    throw (.unexpectedException "$Not_enough_links")
  if sources.length + destinations.length > 2 then
    throw (.unexpectedException "$Ambiguous_links")
  else
    ConceptLink.createSubConceptLink link sourcesDestination.1 sourcesDestination.2
      (heap.uri (heap.link link).uri).name {}

/-- `c.hasGeneralisationRec(cReducible)`, which may exhaust the stack. -/
def isReducibleTo (stack : ℕ) (c cReducible : ConceptRef) : GraphProgram Bool := do
  match (← get).hasGeneralisationRec stack c cReducible with
  | some answer => return answer
  | none => throw .stackOverflow

/-- The first entry of `Defaults.reduceLinks` to which a concept can be reduced. -/
def findReduction (stack : ℕ) (c : ConceptRef) :
    List (ConceptRef × LinkRef) → GraphProgram (Option (ConceptRef × LinkRef))
  | [] => return none
  | entry :: rest => do
      if ← isReducibleTo stack c entry.1 then return some entry
      else findReduction stack c rest

/-- `Correlation.reduceLinks`. -/
def reduceLinks (stack : ℕ) (mappingConceptsInstances : List ConceptRef) :
    GraphProgram (List LinkRef) := do
  let reducibleConcepts ← mappingConceptsInstances.filterM fun c => do
    let found ← defaults.reduceLinks.filterM fun entry => isReducibleTo stack c entry.1
    return found.length > 0
  reducibleConcepts.mapM fun c => do
    match ← findReduction stack c defaults.reduceLinks with
    | some entry => createLinkFromConcept defaults c entry.2
    | none => throw (.unexpectedException "$Filtered_concepts_should_contain_key")

/-- The parent of one instance, in `Correlation.createDomainConcepts`. -/
def createDomainConcept (c : ConceptRef) : GraphProgram ConceptRef := do
  let heap ← get
  let name := (heap.uriOf c).name
  if (heap.uriOf c).uid ≠ "" then
    let parentConcept ← Concept.create name
    Concept.generalisationsAdd c parentConcept
    Concept.setLinks parentConcept (heap.concept c).conceptLinks
    let objLinks := (heap.linksOf c).filter fun l =>
      defaults.objectLinkName.toList.isPrefixOf (heap.uri l.uri).name.toList
    Concept.setGeneralisations parentConcept (objLinks.map ConceptLink.destination)
    return parentConcept
  else
    match indexOf name uidInstanceDelimiter, indexOf name conceptSuffix with
    | some delimiter, some suffix =>
        let parentConcept ← Concept.create
          (substringTo name (if suffix < delimiter then suffix else delimiter))
        Concept.generalisationsAdd c parentConcept
        return parentConcept
    | some delimiter, none =>
        let parentConcept ← Concept.create (substringTo name delimiter)
        Concept.generalisationsAdd c parentConcept
        return parentConcept
    | none, _ => throw (.unexpectedException "$Can_not_create_parent_not_from_instance")

/-- `Correlation.createDomainConcepts`. -/
def createDomainConcepts (stack : ℕ) (mappingConceptsInstances : List ConceptRef) :
    GraphProgram (List ConceptRef) := do
  let parents ← mappingConceptsInstances.mapM (createDomainConcept defaults)
  let _ ← reduceLinks defaults stack mappingConceptsInstances
  return parents ++ mappingConceptsInstances

end Correlation

end ThinkingUnderstanding
