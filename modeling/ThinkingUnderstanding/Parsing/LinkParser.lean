import ThinkingUnderstanding.Hierarchy.ConceptText
import ThinkingUnderstanding.Parsing.PreliminarySplitter
import ThinkingUnderstanding.Persistence.Load

/-!
# The link parser

`LinkParser` walks through the feature tree of a sentence. It finds the phrase of each node
and the concept of the phrase, creating one where there is none, and makes a link of each
relation. Whether a relation leads to a concept is found out by processing the node at its
other end, and when it does the node is processed once more to get the concept.

An `Error` object tells that there was no concept, or that there was more than one. It is
passed back along the walk and may be dropped on the way, so the state here also records
which nodes have been asked for and which `Error` objects have been made, with the node each
was made for. The program itself keeps no such record.

The tense and the part of speech that the parser notes on a phrase are left out.

## Main definitions

* `ParserState` — the state of a walk
* `LinkParser.getConcept`, `LinkParser.findPhrase` — the concept of a node
* `LinkParser.processNode`, `LinkParser.processLink` — the walk
* `LinkParser.processSentences` — the walks of all sentences
-/

namespace ThinkingUnderstanding

open Math

/-- The phrases of an `AnnotatedSentence`. -/
abbrev Sentence := List PhraseRef

/-- An `Error` object, with the node and the phrase it was made for. -/
structure ParseError where
  node : ℕ
  phrase : PhraseRef
  message : String
  deriving DecidableEq, Repr

/-- The state of a walk. -/
structure ParserState where
  heap : Heap := {}
  /-- What `Random.nextInt` gives next, as texts. -/
  uids : ℕ → String := toString
  /-- `context.errors`. -/
  errors : List ParseError := []
  /-- The nodes whose phrase has been found. -/
  asked : List NodeFeatures := []
  /-- The `Error` objects that have been made. -/
  made : List ParseError := []

/-- A method of the link parser. -/
abbrev ParserProgram (α : Type) := EStateM ParseFailure ParserState α

/-- Turn a `RuntimeException` into an `UnexpectedException`. -/
def rewrapping {α : Type} (start : String) (program : ParserProgram α) : ParserProgram α :=
  EStateM.adaptExcept (ParseFailure.rewrap start) program

/-- A change of the heap, with a result. -/
def onHeap {α : Type} (f : Heap → α × Heap) : ParserProgram α :=
  modifyGet fun s => ((f s.heap).1, { s with heap := (f s.heap).2 })

/-- A new URI object. -/
def newURIObject (uri : KnowledgeURI) : ParserProgram UriRef :=
  onHeap fun heap => (heap.uris.size, { heap with uris := heap.uris.alloc uri })

/-- `Random.nextInt(Constant.INSTANCE_ID_RANDOM_SEED).toString`. -/
def nextUid : ParserProgram String :=
  modifyGet fun s => (s.uids 0, { s with uids := fun i => s.uids (i + 1) })

/-- `phrase.conceptsAdd(concept)`. -/
def AnnotatedPhrase.conceptsAdd (phrase : PhraseRef) (concept : ConceptRef) :
    ParserProgram Unit :=
  onHeap fun heap => ((), { heap with
    phrases := heap.phrases.modify phrase fun p => { p with concepts := p.concepts ++ [concept] } })

/-- The text of an object, which is made on the heap. -/
def onTexts (program : EStateM ParseFailure Heap String) : ParserProgram String := fun s =>
  match program.run s.heap with
  | .ok text heap => .ok text { s with heap }
  | .error e heap => .error e { s with heap }

namespace LinkParser

variable (platform : Platform) (textCase : TextCase) (contents : PhraseRef → PhraseContent)

/-- `Concept.createInstanceConcept(phrase)`. -/
def createInstanceConcept (phrase : PhraseRef) : ParserProgram ConceptRef := do
  match Concept.prepareName textCase (contents phrase).text with
  | none => throw (.runtimeException "empty.reduceLeft")
  | some name =>
      let uid ← nextUid
      let phraseUri := ((← get).heap.phrase phrase).uri
      let uri ← newURIObject { name, uid }
      onHeap fun heap => (heap.concepts.size, { heap with
        conceptLines := (heap.conceptLines.alloc {}).alloc {}
        phraseLines := heap.phraseLines.alloc (({} : TypedKLine PhraseRef).add phraseUri phrase)
        concepts := heap.concepts.alloc
          { generalisations := some heap.conceptLines.size
            specialisations := some (heap.conceptLines.size + 1)
            phrases := some heap.phraseLines.size
            content := { value := name, name := name }
            uri } })

/-- The line of phrases of a concept with one more phrase. -/
def addToLine (heap : Heap) (concept : ConceptRef) (phrase : PhraseRef) : Arena (TypedKLine PhraseRef) :=
  match (heap.concept concept).phrases with
  | some line => heap.phraseLines.modify line fun l => l.add (heap.phrase phrase).uri phrase
  | none => heap.phraseLines

/-- `concept.phrasesAdd(phrase)`. -/
def phrasesAdd (concept : ConceptRef) (phrase : PhraseRef) : ParserProgram Unit :=
  onHeap fun heap => ((), { heap with phraseLines := addToLine heap concept phrase })

/-- `LinkParser.findPhrase`. -/
def findPhrase (value : String) (sentence : Sentence) : List PhraseRef :=
  let underscoreLess := replaceChar value '_' ' '
  sentence.filter fun phrase =>
    ((contents phrase).findPhrase textCase (textCase.toLowerCase (trim underscoreLess))).isSome

/-- `LinkParser.getConcept`. An error is given as its message. -/
def getConcept (name : String) (sentence : Sentence) :
    ParserProgram (PhraseRef × Option ConceptRef × Option String) := do
  match findPhrase textCase contents name sentence with
  | [phrase] =>
      match ((← get).heap.phrase phrase).concepts with
      | [concept] => return (phrase, some concept, none)
      | [] =>
          let concept ← createInstanceConcept textCase contents phrase
          AnnotatedPhrase.conceptsAdd phrase concept
          phrasesAdd concept phrase
          return (phrase, some concept,
            some ("$No_concepts_found_for_phrase: " ++ (contents phrase).phrase textCase))
      | _ :: _ :: _ => return (phrase, none, some "$Ambiguous_concepts")
  | [] => throw (.unexpectedException ("$No_phrases_found " ++ name))
  | _ :: _ :: _ => throw (.unexpectedException ("$Ambiguous_phrases " ++ name))

/-- `LinkParser.getNameOrigString`. -/
def getNameOrigString (features : NodeFeatures) : Option String × Option String :=
  (features.name, features.origStr.or features.nameSourceOrigStr)

/-- The name a node is looked up by. -/
def nameOf (features : NodeFeatures) : Option String :=
  match getNameOrigString features with
  | (some name, _) => some name
  | (none, some origStr) => some origStr
  | (none, none) => none

/-- The pair of concept and error that `processNode` returns. -/
abbrev NodeResult := Option ConceptRef × Option ParseError

/-- The name of the link for a relation. -/
def conceptLinkName (name : String) : String :=
  if '_' ∈ name.toList then String.ofList (name.toList.drop 1) else name

/-- `ConceptLink(source, destination, name)`. -/
def createConceptLink (source destination : ConceptRef) (name : String) :
    ParserProgram LinkRef := do
  match KnowledgeURI.ofRaw name with
  | none => throw (.runtimeException "String index out of range")
  | some knowledgeURI =>
      let uri ← newURIObject knowledgeURI
      onHeap fun heap =>
        (heap.links.size, { heap with links := heap.links.alloc { source, destination, uri } })

/-- Whether a relation leads to a concept, in `processLink`. -/
def hasDestination (link : String × ParserProgram NodeResult) : ParserProgram Bool := do
  match ← link.2 with
  | (some _, none) => return true
  | (none, some _) => return false
  | _ => throw (.runtimeException "scala.MatchError")

/-- The link of a relation that leads to a concept, in `processLink`. -/
def linkFor (source : ConceptRef) (link : String × ParserProgram NodeResult) :
    ParserProgram LinkRef := do
  match ← link.2 with
  | (some destination, none) => createConceptLink source destination (conceptLinkName link.1)
  | _ => throw (.runtimeException "scala.MatchError")

/-- `LinkParser.processLink`, in terms of processing the nodes at the other ends. -/
def processLink (links : List (String × ParserProgram NodeResult)) (source : ConceptRef) :
    ParserProgram (List LinkRef) :=
  rewrapping "$No_features_found " do
    if (filteredFeatures links).length > 0 then
      let filteredDestinationFeatures ← (filteredFeatures links).filterM hasDestination
      filteredDestinationFeatures.mapM (linkFor source)
    else return []

/-- `concept.links = concept.links ::: processedLinks`. -/
def appendLinks (concept : ConceptRef) (processedLinks : List LinkRef) : ParserProgram Unit :=
  onHeap fun heap => ((), { heap with
    concepts := heap.concepts.modify concept fun c =>
      { c with conceptLinks := c.conceptLinks ++ processedLinks } })

/-- The result of processing `NEXT` is not looked at. -/
def processNext : Option (ParserProgram NodeResult) → ParserProgram Unit
  | some process => do
      let _ ← process
      return ()
  | none => return ()

/-- `LinkParser.addLinks`. -/
def addLinks (links : List (String × ParserProgram NodeResult))
    (next : Option (ParserProgram NodeResult)) (concept : ConceptRef) :
    ParserProgram ConceptRef := do
  let processedLinks ← processLink links concept
  appendLinks concept processedLinks
  processNext next
  return concept

/-- The record of a node that has been asked for, and of the error made for it. -/
def ParserState.recorded (s : ParserState) (features : NodeFeatures) (error : Option ParseError) :
    ParserState :=
  { s with asked := s.asked ++ [features], made := s.made ++ error.toList }

/-- `getConcept` for a node, which is recorded. -/
def lookUp (features : NodeFeatures) (name : String) (sentence : Sentence) :
    ParserProgram (Option ConceptRef × Option ParseError) := do
  let (annotatedPhrase, found, message) ← getConcept textCase contents name sentence
  let error : Option ParseError := message.map (⟨features.object, annotatedPhrase, ·⟩)
  modify fun s => ParserState.recorded s features error
  return (found, error)

/-- `concept.toString`. -/
def textOf (concept : ConceptRef) : ParserProgram String :=
  onTexts (Concept.toString platform .uriSyntaxException concept)

/-- What `LinkParser.processNode` does with the concept of a node, once links have been added.
The texts of an orphan are arguments of a log message, and are made whether or not it is logged;
the error made for the orphan is dropped. -/
def conclude (concept : ConceptRef) (error : Option ParseError) (updatedConcept : ConceptRef) :
    ParserProgram NodeResult := do
  if error.isSome then
    let _ ← textOf platform updatedConcept
    let _ ← textOf platform concept
  return (some updatedConcept, none)

/-- What `LinkParser.processNode` does once the node has been looked up. -/
def afterLookUp (links : List (String × ParserProgram NodeResult))
    (next : Option (ParserProgram NodeResult)) :
    Option ConceptRef × Option ParseError → ParserProgram NodeResult
  | (some concept, error) => do
      let updatedConcept ← addLinks links next concept
      conclude platform concept error updatedConcept
  | (none, some e) => return (none, some e)
  | (none, none) => throw (.runtimeException "scala.MatchError")

/-- What `LinkParser.processNode` does at a node, in terms of its recursive calls. -/
def processNodeWith (sentence : Sentence) (features : NodeFeatures)
    (links : List (String × ParserProgram NodeResult))
    (next : Option (ParserProgram NodeResult)) : ParserProgram NodeResult :=
  rewrapping "$Wrong_feature_requested " do
    match nameOf features with
    | none => throw (.unexpectedException "$No_name_found")
    | some name =>
        afterLookUp platform links next (← lookUp textCase contents features name sentence)

/-- `LinkParser.processNode`. -/
def processNode (sentence : Sentence) : FeatureNode → ParserProgram NodeResult :=
  FeatureNode.fold (processNodeWith platform textCase contents sentence)

/-- What `processSentences` does with one sentence, given what it has been parsed to. -/
def processSentence (sentence : Sentence) (parse : Option FeatureNode) : ParserProgram Unit := do
  match parse with
  | none => throw (.unexpectedException "$No_parses_produced")
  | some head =>
      match ← processNode platform textCase contents sentence head with
      | (_, some e) => modify fun s => { s with errors := s.errors ++ [e] }
      | (_, none) => return ()

/-- `LinkParser.processSentences`. -/
def processSentences (sentences : List (Sentence × Option FeatureNode)) :
    ParserProgram (List Sentence) := do
  forM sentences fun sentence => processSentence platform textCase contents sentence.1 sentence.2
  return sentences.map Prod.fst

/-! ### What a node is looked up to -/

variable {platform textCase} {contents} {name : String} {sentence : Sentence} {phrase : PhraseRef}
  {s : ParserState}

/-- A new concept without links leaves the links of all concepts as they are. -/
theorem conceptLinks_alloc (concepts : Arena Concept) {concept : Concept}
    (unlinked : concept.conceptLinks = []) (c : ConceptRef) :
    ((concepts.alloc concept).get c).conceptLinks = (concepts.get c).conceptLinks := by
  rw [Arena.alloc, Arena.get_modify]
  split
  case isTrue new =>
    subst new
    rw [unlinked, concepts.get_of_size_le _ le_rfl]
    rfl
  case isFalse => rfl

/-- The line of phrases of a concept exists. -/
def HasLine (heap : Heap) (c : ConceptRef) : Prop :=
  c < heap.concepts.size ∧ ∃ line < heap.phraseLines.size, (heap.concept c).phrases = some line

/-- What the creation of an orphan changes: the phrase gets the new concept, under whose phrases
it is filed, and nothing that was there is touched otherwise. -/
structure MakesOrphan (phrase : PhraseRef) (concept : ConceptRef) (s t : ParserState) : Prop where
  filed : HasLine t.heap concept ∧ (t.heap.phrasesOf concept).keys = [(s.heap.phrase phrase).uri]
  phrasesOf : ∀ c, HasLine s.heap c →
    HasLine t.heap c ∧ t.heap.phrasesOf c = s.heap.phrasesOf c
  phrases : t.heap.phrases =
    s.heap.phrases.modify phrase fun p => { p with concepts := p.concepts ++ [concept] }
  links : t.heap.links = s.heap.links
  uris : ∃ uri, t.heap.uris = s.heap.uris.alloc uri
  conceptLinks : ∀ c, (t.heap.concept c).conceptLinks = (s.heap.concept c).conceptLinks
  errors : t.errors = s.errors
  asked : t.asked = s.asked
  made : t.made = s.made

theorem addToLine_eq {heap : Heap} {concept : ConceptRef} {line : LineRef}
    (has : (heap.concept concept).phrases = some line) :
    addToLine heap concept phrase =
      heap.phraseLines.modify line fun l => l.add (heap.phrase phrase).uri phrase := by
  rw [addToLine, has]

/-- A new concept with a new line of phrases, in which the phrase is filed. -/
theorem makesOrphan_of_eq {t : ParserState}
    (phrases : t.heap.phrases =
      s.heap.phrases.modify phrase fun p =>
        { p with concepts := p.concepts ++ [s.heap.concepts.size] })
    (links : t.heap.links = s.heap.links)
    (uris : ∃ uri, t.heap.uris = s.heap.uris.alloc uri)
    (concepts : ∃ new, t.heap.concepts = s.heap.concepts.alloc new ∧ new.conceptLinks = [] ∧
      new.phrases = some s.heap.phraseLines.size)
    (lines : ∃ heap, t.heap.phraseLines = addToLine heap s.heap.concepts.size phrase ∧
      heap.concepts = t.heap.concepts ∧ heap.phrases = t.heap.phrases ∧
      heap.phraseLines = s.heap.phraseLines.alloc
        (({} : TypedKLine PhraseRef).add (s.heap.phrase phrase).uri phrase))
    (errors : t.errors = s.errors) (asked : t.asked = s.asked) (made : t.made = s.made) :
    MakesOrphan phrase s.heap.concepts.size s t := by
  obtain ⟨new, concepts, unlinked, filed⟩ := concepts
  obtain ⟨heap, lines, concepts', phrases', lines'⟩ := lines
  have here : t.heap.concept s.heap.concepts.size = new := by
    rw [Heap.concept, concepts, Arena.get_alloc_size]
  have uri : (t.heap.phrase phrase).uri = (s.heap.phrase phrase).uri := by
    rw [Heap.phrase, phrases, Arena.get_modify_self, Heap.phrase]
  have written : t.heap.phraseLines = (s.heap.phraseLines.alloc
      (({} : TypedKLine PhraseRef).add (s.heap.phrase phrase).uri phrase)).modify
        s.heap.phraseLines.size fun l => l.add (s.heap.phrase phrase).uri phrase := by
    have has : (heap.concept s.heap.concepts.size).phrases = some s.heap.phraseLines.size := by
      rw [Heap.concept, concepts']
      exact (congrArg Concept.phrases here).trans filed
    have filedUnder : (heap.phrase phrase).uri = (s.heap.phrase phrase).uri := by
      rw [Heap.phrase, phrases']
      exact uri
    rw [lines, addToLine_eq has, lines', filedUnder]
  have extended : s.heap.phraseLines.Extends t.heap.phraseLines := by
    rw [written]
    exact (Arena.Extends.alloc _ _).modify le_rfl _
  constructor
  case filed =>
    refine ⟨⟨?_, s.heap.phraseLines.size, ?_, ?_⟩, ?_⟩
    · rw [concepts, Arena.size_alloc]
      exact Nat.lt_succ_self _
    · rw [written]
      refine Nat.lt_of_lt_of_le ?_ (Arena.size_le_size_modify ..)
      rw [Arena.size_alloc]
      exact Nat.lt_succ_self _
    · rw [here, filed]
    · rw [Heap.phrasesOf, here, filed, Option.elim_some, written, Arena.get_modify_self,
        Arena.get_alloc_size]
      simp [TypedKLine.keys, TypedKLine.add, InsertionMap.keys_insert]
  case phrasesOf =>
    rintro c ⟨old, line, inside, has⟩
    have same : t.heap.concept c = s.heap.concept c := by
      rw [Heap.concept, concepts, Arena.get_alloc_of_lt _ old, Heap.concept]
    refine ⟨⟨?_, line, inside.trans_le extended.size, same ▸ has⟩, ?_⟩
    · rw [concepts, Arena.size_alloc]
      exact old.trans (Nat.lt_succ_self _)
    · rw [Heap.phrasesOf, same, has, Option.elim_some, extended.get line inside, Heap.phrasesOf,
        has, Option.elim_some]
  case conceptLinks =>
    intro c
    rw [Heap.concept, concepts]
    exact conceptLinks_alloc s.heap.concepts unlinked c
  all_goals assumption

theorem run_getConcept_of_no_phrase (none : findPhrase textCase contents name sentence = []) :
    (getConcept textCase contents name sentence).run s =
      .error (.unexpectedException ("$No_phrases_found " ++ name)) s := by
  rw [getConcept, none]
  rfl

theorem run_getConcept_of_phrases {first second : PhraseRef} {rest : Sentence}
    (many : findPhrase textCase contents name sentence = first :: second :: rest) :
    (getConcept textCase contents name sentence).run s =
      .error (.unexpectedException ("$Ambiguous_phrases " ++ name)) s := by
  rw [getConcept, many]
  rfl

theorem run_lookUp (features : NodeFeatures) {found : Option ConceptRef} {message : Option String}
    {m : ParserState}
    (run : (getConcept textCase contents name sentence).run s = .ok (phrase, found, message) m) :
    (lookUp textCase contents features name sentence).run s =
      .ok (found, message.map (⟨features.object, phrase, ·⟩))
        (ParserState.recorded m features (message.map (⟨features.object, phrase, ·⟩))) := by
  rw [lookUp, EStateM.run_bind, run]
  rfl

section OnePhrase

variable (one : findPhrase textCase contents name sentence = [phrase])

include one

theorem run_getConcept_of_concept {concept : ConceptRef}
    (known : (s.heap.phrase phrase).concepts = [concept]) :
    (getConcept textCase contents name sentence).run s = .ok (phrase, some concept, none) s := by
  rw [getConcept, one]
  change EStateM.run (match (s.heap.phrase phrase).concepts with
    | [concept] => _ | [] => _ | _ :: _ :: _ => _) s = _
  rw [known]
  rfl

theorem run_getConcept_of_ambiguous {first second : ConceptRef} {rest : List ConceptRef}
    (many : (s.heap.phrase phrase).concepts = first :: second :: rest) :
    (getConcept textCase contents name sentence).run s =
      .ok (phrase, none, some "$Ambiguous_concepts") s := by
  rw [getConcept, one]
  change EStateM.run (match (s.heap.phrase phrase).concepts with
    | [concept] => _ | [] => _ | _ :: _ :: _ => _) s = _
  rw [many]
  rfl

theorem run_getConcept_of_unnamed (none : (s.heap.phrase phrase).concepts = [])
    (unnamed : Concept.prepareName textCase (contents phrase).text = Option.none) :
    (getConcept textCase contents name sentence).run s =
      .error (.runtimeException "empty.reduceLeft") s := by
  rw [getConcept, one]
  change EStateM.run (match (s.heap.phrase phrase).concepts with
    | [concept] => _ | [] => _ | _ :: _ :: _ => _) s = _
  rw [none]
  simp only [createInstanceConcept, unnamed]
  rfl

theorem run_getConcept_of_orphan (none : (s.heap.phrase phrase).concepts = [])
    {conceptName : String}
    (named : Concept.prepareName textCase (contents phrase).text = some conceptName) :
    ∃ concept t, (getConcept textCase contents name sentence).run s = .ok (phrase, some concept,
        some ("$No_concepts_found_for_phrase: " ++ (contents phrase).phrase textCase)) t ∧
      MakesOrphan phrase concept s t := by
  rw [getConcept, one]
  change ∃ concept t, EStateM.run (match (s.heap.phrase phrase).concepts with
    | [concept] => _ | [] => _ | _ :: _ :: _ => _) s = _ ∧ _
  rw [none]
  simp only [createInstanceConcept, named]
  refine ⟨s.heap.concepts.size, _, rfl, makesOrphan_of_eq ?_ ?_ ⟨_, rfl⟩
    ⟨_, rfl, rfl, rfl⟩ ⟨_, rfl, rfl, rfl, rfl⟩ ?_ ?_ ?_⟩
  all_goals rfl

end OnePhrase

end LinkParser

end ThinkingUnderstanding
