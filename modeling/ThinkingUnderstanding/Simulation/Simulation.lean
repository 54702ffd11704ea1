import ThinkingUnderstanding.Hierarchy.Hashing
import ThinkingUnderstanding.Hierarchy.Operations
import ThinkingUnderstanding.Parsing.PhraseContent
import ThinkingUnderstanding.Persistence.Narratives

/-!
# Simulation

`Simulation.apply` looks for the concepts of every phrase of a narrative, in the phrase and in a
network of concepts, the simulation model. Where one phrase has exactly one, it makes a network
of new instances, with one instance for every phrase that has any. For a phrase with several, an
instance of the concept is made that has the most links to concepts of the narrative.

The phrases with several concepts are the keys of an immutable map, which hashes them when there
are more than four. The links an instance is given are collected along the generalisations of
concepts, without a list of what has been seen. Both recursions are on a stack of bounded depth.

The text of the result is only logged. What is modelled of its making is that it asks for the
texts of URIs, which `java.net.URI` may refuse. The other log messages are left out, and so is
the network object: a result is the value of its fields.

## Main definitions

* `SimulationSetting`, `SimulationProgram` — what is left open by the platform, and the methods
* `Heap.getNodeByPhrase`, `Heap.countLinks`, `Heap.getGeneralisedLinks` — what the methods look up
* `Simulation.instantiateConcepts`, `Simulation.processMatches`, `Simulation.apply`
-/

namespace ThinkingUnderstanding

open Math Semantics

/-- Why a simulation ends with an exception. -/
inductive SimulationFailure
  | graph (failure : GraphFailure)
  /-- `java.rmi.UnexpectedException`, which the simulation throws itself. -/
  | unexpectedException (message : String)
  | noSuchElementException (message : String)
  | unsupportedOperationException (message : String)
  | uriSyntaxException (input : String)
  deriving DecidableEq, Repr

/-- A method of the simulation. -/
abbrev SimulationProgram (α : Type) := EStateM SimulationFailure Heap α

/-- `Constant.INSTANCE_ID_RANDOM_SEED`. -/
def instanceIdRandomSeed : ℕ := 900

theorem instanceIdRandomSeed_pos : 0 < instanceIdRandomSeed := by decide

/-- What the simulation relies on: the conversion of case, the platform, and how the hash codes
of fields are mixed. -/
structure SimulationSetting where
  textCase : TextCase
  platform : Platform
  mix : HashedObject → List Int32 → Int32

/-- `Random.nextInt(Constant.INSTANCE_ID_RANDOM_SEED)`: the number that is drawn when there are
so many URI objects. Every number is drawn for a new one. -/
abbrev Draws := ℕ → Fin instanceIdRandomSeed

/-- A `ConceptNetwork`, with the phrases that it keeps as not known. -/
structure SimulatedNetwork extends ConceptNetwork where
  notKnownPhrases : List PhraseRef := []
  deriving Repr

/-! ## Lookups -/

/-- `ConceptNetwork.reduceInstanceIdentifier`. -/
def reduceInstanceIdentifier (name : String) : String :=
  match indexOf name uidInstanceDelimiter with
  | some indexOfUIDDelimiter => substringTo name indexOfUIDDelimiter
  | none => name

namespace Heap

variable (heap : Heap) (textCase : TextCase)

/-- The name of the URI of a link. -/
def linkName (l : LinkRef) : String := (heap.uri (heap.link l).uri).name

/-- `ConceptNetwork.getNodeByName`. -/
def getNodeByName (network : ConceptNetwork) (name : String) : List ConceptRef :=
  network.nodes.filter fun concept =>
    reduceInstanceIdentifier (heap.uriOf concept).name = reduceInstanceIdentifier name

/-- `ConceptNetwork.getLinkByName`. -/
def getLinkByName (network : ConceptNetwork) (name : String) : List LinkRef :=
  network.links.filter fun l =>
    textCase.toLowerCase (heap.linkName l) = textCase.toLowerCase name

/-- `ConceptNetwork.getNodeByPhrase`: the concepts of the phrase, and the nodes of the network
with the text of the phrase as their content. -/
def getNodeByPhrase (network : ConceptNetwork) (aPhrase : PhraseRef) : List ConceptRef :=
  let res := (heap.phrase aPhrase).concepts
  res ++ network.nodes.filter fun concept =>
    textCase.toLowerCase (heap.concept concept).content.value =
      textCase.toLowerCase (heap.phrase aPhrase).text ∧ concept ∉ res

/-- `AnnotatedPhrase.phrase`. -/
def phraseText (p : PhraseRef) : String :=
  match (heap.phrase p).phrases with
  | [] => (heap.phrase p).text
  | phrases => " ".intercalate (phrases.map fun b => textCase.toLowerCase (heap.phrase b).text)

/-- `AnnotatedSentence.concepts`. -/
def conceptsOfSentence (sentence : AnnotatedSentence) : List ConceptRef :=
  let phrasesWithConcepts := sentence.phrases.filter fun p => (heap.phrase p).concepts.length > 0
  (phrasesWithConcepts.map fun p => (heap.phrase p).concepts).flatten

/-- `AnnotatedNarrative.concepts`. -/
def conceptsOfNarrative (text : AnnotatedNarrative) : List ConceptRef :=
  let sentencesWithConcepts :=
    text.sentences.filter fun s => (heap.conceptsOfSentence s).length > 0
  (sentencesWithConcepts.map heap.conceptsOfSentence).flatten

/-- `SimulationReformulationAbstract.countLinks`. -/
def countLinks (concept : ConceptRef) (list : List ConceptRef) : ℕ :=
  ((heap.linksOf concept).filter fun link =>
    if link.source = concept then (list.filter fun c => c = link.destination).length > 0
    else (list.filter fun c => c = link.source).length > 0).length

/-- `SimulationReformulationAbstract.selectWithGeneralisations`. -/
def selectWithGeneralisations (depth : ℕ) (concept : ConceptRef) (checkList : List ConceptRef) :
    Option (List ConceptRef) :=
  checkList.filterM fun c => do
    let generalisations ← heap.getGeneralisationsRec depth c
    let same := generalisations.filter fun cG => (heap.uriOf cG).name = (heap.uriOf concept).name
    return same.length > 0 || (heap.uriOf c).name = (heap.uriOf concept).name

/-- The end of a link that is looked at from a concept. -/
def otherEnd (concept : ConceptRef) (l : LinkRef) : ConceptRef :=
  if (heap.link l).source = concept then (heap.link l).destination else (heap.link l).source

/-- The links of a concept for whose other end some concept is selected. -/
def filteredConceptLinks (depth : ℕ) (incidentConcepts : List ConceptRef) (concept : ConceptRef) :
    Option (List LinkRef) :=
  (heap.concept concept).conceptLinks.filterM fun l =>
    (heap.selectWithGeneralisations depth (heap.otherEnd concept l) incidentConcepts).map
      fun selected => selected.length > 0

/-- `SimulationReformulationAbstract.getGeneralisedLinks`, on a stack of the given depth. -/
def getGeneralisedLinks (incidentConcepts : List ConceptRef) :
    ℕ → ConceptRef → Option (List LinkRef)
  | 0, _ => none
  | depth + 1, concept => do
      let gLinks ← (heap.generalisations concept).values.mapM
        (getGeneralisedLinks incidentConcepts depth)
      let filteredConceptLinks ← heap.filteredConceptLinks depth incidentConcepts concept
      return filteredConceptLinks ++ gLinks.flatten

variable (simulationModel : ConceptNetwork)

/-- The links of a concept whose other end has not been processed, and which the model has by
their names. -/
def incidentLinksNotProcessed (processedConcepts : List ConceptRef) (concept : ConceptRef) :
    List LinkRef :=
  (heap.concept concept).conceptLinks.filter fun l =>
    if (heap.getLinkByName textCase simulationModel (heap.linkName l)).length > 0 then
      if (heap.link l).source = concept then (heap.link l).destination ∉ processedConcepts
      else if (heap.link l).destination = concept then (heap.link l).source ∉ processedConcepts
      else false
    else false

/-- The links of the model's concept with the name of a concept, and those of its
generalisations. -/
def modelLinksNotProcessed (depth : ℕ) (concepts : List ConceptRef)
    (incidentLinksNotProcessed : List LinkRef) (concept : ConceptRef) : Option (List LinkRef) :=
  match heap.getNodeByName simulationModel (heap.uriOf concept).name with
  | [] => some []
  | modelConcept :: _ => do
      let mLinks := (heap.concept modelConcept).conceptLinks.filter fun l =>
        l ∉ incidentLinksNotProcessed
      let gLinks ← heap.getGeneralisedLinks concepts depth modelConcept
      let gFLinks :=
        if gLinks.length > 0 then gLinks.filter fun g => g ∉ incidentLinksNotProcessed else []
      return mLinks ++ gFLinks

/-- The links that an instance of a concept is given instances of. -/
def notProcessedLinks (depth : ℕ) (concepts processedConcepts : List ConceptRef)
    (concept : ConceptRef) : Option (List LinkRef) := do
  let incident := heap.incidentLinksNotProcessed textCase simulationModel processedConcepts concept
  let modelLinks ← heap.modelLinksNotProcessed simulationModel depth concepts incident concept
  return incident ++ modelLinks

/-- `phrase.concepts.reduceLeft(...)`: of two concepts the first one is kept if it has more links
into the text. -/
def mostReferenced (text concepts : List ConceptRef) : Option ConceptRef :=
  match concepts with
  | [] => none
  | c :: rest => some (rest.foldl (fun c1 c2 =>
      if heap.countLinks c1 text > heap.countLinks c2 text then c1 else c2) c)

end Heap

namespace Simulation

/-! ## Phrases and their matches -/

section Filters

variable (textCase : TextCase) (heap : Heap) (narrative : AnnotatedNarrative)
  (simulationModel : ConceptNetwork)

/-- `Simulation.filterPhrase`. -/
def filterPhrase (phrase : PhraseRef) : List ConceptRef :=
  heap.getNodeByPhrase textCase simulationModel phrase

/-- The phrases of a narrative that pass a filter. -/
def filteredPhrases (keep : PhraseRef → Bool) : List PhraseRef :=
  (narrative.sentences.map fun sentence => sentence.phrases.filter keep).flatten

/-- The phrases with exactly one match. -/
def exactMatch : List PhraseRef :=
  filteredPhrases narrative fun phrase =>
    (filterPhrase textCase heap simulationModel phrase).length = 1

/-- The phrases with a match. -/
def hasMatches : List PhraseRef :=
  filteredPhrases narrative fun phrase =>
    (filterPhrase textCase heap simulationModel phrase).length > 0

/-- The phrases with several matches. -/
def ambiguous : List PhraseRef :=
  filteredPhrases narrative fun phrase =>
    (filterPhrase textCase heap simulationModel phrase).length > 1

/-- The phrases without a match that are no name of a link of the model either. -/
def notKnown : List PhraseRef :=
  filteredPhrases narrative fun phrase =>
    (heap.getLinkByName textCase simulationModel (heap.phraseText textCase phrase)).length < 1 ∧
      (filterPhrase textCase heap simulationModel phrase).length < 1

end Filters

/-! ## Instances -/

section Instances

variable (draws : Draws)

/-- `Concept.createInstanceConcept(parent)`. -/
def createInstanceConcept (parent : ConceptRef) : SimulationProgram ConceptRef := do
  let uID := draws (← get).uris.size
  EStateM.adaptExcept .graph (Concept.createInstanceConcept parent (toString uID.val))

/-- The name of the instance of a link. -/
def instanceLinkName (name : String) (uID : Fin instanceIdRandomSeed) : String :=
  name ++ "&ID=" ++ toString uID.val ++ "ConceptLink"

/-- `ConceptLink.createInstanceConceptLink`. -/
def createInstanceConceptLink (parent : LinkRef) (source destination : ConceptRef) :
    SimulationProgram LinkRef := do
  let heap ← get
  let name := instanceLinkName (heap.linkName parent) (draws heap.uris.size)
  let it ← EStateM.adaptExcept .graph (ConceptLink.construct source destination { name })
  EStateM.adaptExcept .graph (ConceptLink.fileUnder parent it)
  return it

/-- The instance of a link of a concept, between the instance of the concept and a new instance
of the other end. -/
def instantiateLink (concept currentInstance : ConceptRef) (link : LinkRef) :
    SimulationProgram LinkRef := do
  let heap ← get
  if (heap.link link).source = concept then
    let currentDestination ← createInstanceConcept draws (heap.link link).destination
    createInstanceConceptLink draws link currentInstance currentDestination
  else
    let currentSource ← createInstanceConcept draws (heap.link link).source
    createInstanceConceptLink draws link currentSource currentInstance

variable (setting : SimulationSetting) (stack : ℕ) (simulationModel : ConceptNetwork)
  (concepts : List ConceptRef)

/-- The instance of a concept, and of its links. -/
def instantiateConcept (processedConcepts : List ConceptRef) (concept : ConceptRef) :
    SimulationProgram (ConceptRef × List LinkRef) := do
  let currentInstance ← createInstanceConcept draws concept
  match (← get).notProcessedLinks setting.textCase simulationModel stack concepts
    processedConcepts concept with
  | some links =>
      let linkInstances ← links.mapM (instantiateLink draws concept currentInstance)
      EStateM.adaptExcept .graph (Concept.setLinks currentInstance linkInstances)
      return (currentInstance, linkInstances)
  | none => throw (.graph .stackOverflow)

/-- `concepts.map(...)`: the instances of the concepts, one after the other. -/
def instantiateEach (processedConcepts : List ConceptRef) :
    List ConceptRef → SimulationProgram (List (ConceptRef × List LinkRef))
  | [] => return []
  | concept :: rest => do
      let instanceLinks ← instantiateConcept draws setting stack simulationModel concepts
        processedConcepts concept
      let others ← instantiateEach (processedConcepts ++ [concept]) rest
      return instanceLinks :: others

/-- `ConceptNetwork(nodes, links, name)`. -/
def createNetwork (nodes : List ConceptRef) (links : List LinkRef) (name : String) :
    SimulationProgram SimulatedNetwork := do
  let uri ← EStateM.adaptExcept .graph (Concept.newURI name)
  return { nodes, links, uri }

/-- `SimulationReformulationAbstract.instantiateConcepts`. -/
def instantiateConcepts (name : String) : SimulationProgram SimulatedNetwork := do
  let instancesLinks ← instantiateEach draws setting stack simulationModel concepts [] concepts
  let instances := instancesLinks.map Prod.fst
  let flatLinks := (instancesLinks.map Prod.snd).flatten
  createNetwork instances flatLinks name

end Instances

/-! ## The text of the result -/

section Text

variable (platform : Platform)

/-- `KnowledgeURI.toString`, which is `uriText` in a process that has stored nothing. -/
def uriToString (u : UriRef) : SimulationProgram String := fun heap =>
  match (uriText platform u).run { heap, kb := .onlyRoot, id2object := fun _ => none } with
  | .ok text world => .ok text world.heap
  | .error _ world => .error (.uriSyntaxException (heap.uri u).format) world.heap

/-- The URIs whose texts `ConceptNetwork.toString` asks for: those under which the nodes file
phrases, and those of the links and the network. -/
def urisOfText (heap : Heap) (network : ConceptNetwork) : List UriRef :=
  network.nodes.flatMap (fun c => (heap.phrasesOf c).keys) ++
    network.links.map (fun l => (heap.link l).uri) ++ [network.uri]

/-- `ConceptNetwork.toString`, for the URIs that it asks for their texts. -/
def networkToString (network : ConceptNetwork) : SimulationProgram (List String) := do
  (urisOfText (← get) network).mapM (uriToString platform)

end Text

/-! ## The simulation -/

section Apply

variable (setting : SimulationSetting) (draws : Draws) (stack : ℕ)

/-- The hash code of a phrase in a heap. -/
def hashPhrase (heap : Heap) (phrase : PhraseRef) : Option Int32 :=
  hashCode setting.mix heap stack (.phrase phrase)

/-- `Simulation.processAmbiguousBackReferences`. -/
def processAmbiguousBackReferences (phrases : List PhraseRef) (text : AnnotatedNarrative) :
    SimulationProgram (InsertionMap PhraseRef ConceptRef) := do
  let heap ← get
  let mostReferencedConcept ← phrases.mapM fun phrase =>
    match heap.mostReferenced (heap.conceptsOfNarrative text) (heap.phrase phrase).concepts with
    | some concept => return (phrase, concept)
    | none => throw (.unsupportedOperationException "empty.reduceLeft")
  match toMap (hashPhrase setting stack heap) mostReferencedConcept with
  | some unAmbiguous => return unAmbiguous
  | none => throw (.graph .stackOverflow)

/-- `unAmbiguous.get(phrase)`. -/
def getUnAmbiguous (unAmbiguous : InsertionMap PhraseRef ConceptRef) (phrase : PhraseRef) :
    SimulationProgram (Option ConceptRef) := do
  match mapGet (hashPhrase setting stack (← get)) unAmbiguous phrase with
  | some found => return found
  | none => throw (.graph .stackOverflow)

/-- The concept of a phrase with matches. -/
def conceptOfMatch (exactMatches : List PhraseRef) (unAmbiguous : InsertionMap PhraseRef ConceptRef)
    (phrase : PhraseRef) : SimulationProgram ConceptRef := do
  if phrase ∈ exactMatches then
    match ((← get).phrase phrase).concepts with
    | concept :: _ => return concept
    | [] => throw (.noSuchElementException "head of empty list")
  else if (← getUnAmbiguous setting stack unAmbiguous phrase).isSome then
    match ← getUnAmbiguous setting stack unAmbiguous phrase with
    | some res => return res
    | none => throw (.unexpectedException "$Filtered_phrases_must_contains_concepts")
  else
    throw (.unexpectedException
      "$Filtered_phrases_must_be_either_in_exact_matches_or_in_unambigous")

/-- `Simulation.processMatches`. -/
def processMatches (phrases exactMatches : List PhraseRef)
    (unAmbiguous : InsertionMap PhraseRef ConceptRef) (simulationModel : ConceptNetwork) :
    SimulationProgram SimulatedNetwork := do
  let concepts ← phrases.mapM (conceptOfMatch setting stack exactMatches unAmbiguous)
  let res ← instantiateConcepts draws setting stack simulationModel concepts "Simulation"
  -- the text is an argument of a log message, so it is made whether or not it is logged
  let _ ← networkToString setting.platform res.toConceptNetwork
  return res

/-- `Simulation.apply`. -/
def apply (narrative : AnnotatedNarrative) (simulationModel : ConceptNetwork) :
    SimulationProgram (Option SimulatedNetwork) := do
  let heap ← get
  let exactMatch := exactMatch setting.textCase heap narrative simulationModel
  let hasMatches := hasMatches setting.textCase heap narrative simulationModel
  let ambiguous := ambiguous setting.textCase heap narrative simulationModel
  let notKnown := notKnown setting.textCase heap narrative simulationModel
  let unAmbiguous ← processAmbiguousBackReferences setting stack ambiguous narrative
  if notKnown.length > 0 then
    let network ← createNetwork [] [] "NotKnownConceptsHolder"
    return some { network with notKnownPhrases := notKnown }
  else if exactMatch.length > 0 then
    return some (← processMatches setting draws stack hasMatches exactMatch unAmbiguous
      simulationModel)
  else
    return none

end Apply

end Simulation

end ThinkingUnderstanding
