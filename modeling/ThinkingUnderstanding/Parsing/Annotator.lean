import ThinkingUnderstanding.Hierarchy.Entanglement
import ThinkingUnderstanding.Parsing.LinkParser

/-!
# The annotator

`KBAnnotatorImpl` looks for a concept of each phrase: among the concepts of the domain model and
what specialises them, by the text of the phrase and then by its synonyms, which external
annotators know. A concept is found by the text of one of its own phrases, or by its content.
The phrase gets it as its only concept; where none is found, the parts of the phrase are
annotated instead.

The factories of phrases with several concepts, or several words, are here too.

Recursions take the depth the stack allows. The texts of phrases are read from the heap, where
the composition of a phrase is followed to the depth that the number of phrases allows.

## Main definitions

* `AnnotatedPhrase.ofPhrasesAndConcepts`, `AnnotatedPhrase.ofWordAndConcepts`,
  `AnnotatedPhrase.ofWordsAndConcept` — factories
* `KBAnnotatorImpl.annotatePhrase`, `KBAnnotatorImpl.apply` — the annotation

## Main results

* `KBAnnotatorImpl.run_annotatePhrase` — what the annotation of a phrase does
-/

namespace ThinkingUnderstanding

open Math Semantics

/-- The text and the composition of a phrase, to the given depth. -/
def Heap.contentTo (heap : Heap) : ℕ → PhraseRef → PhraseContent
  | 0, p => .mk (heap.phrase p).text 0 []
  | depth + 1, p => .mk (heap.phrase p).text 0 ((heap.phrase p).phrases.map (heap.contentTo depth))

/-- The text and the composition of a phrase, whose parts are older than it is. -/
def Heap.content (heap : Heap) (p : PhraseRef) : PhraseContent :=
  heap.contentTo heap.phrases.size p

namespace AnnotatedPhrase

/-- `toString` of a list, given the texts of its elements. -/
def listText (texts : List String) : String := "List(" ++ ", ".intercalate texts ++ ")"

/-- `AnnotatedPhrase(words, concepts)` and `AnnotatedPhrase(words, concepts, conceptLinks)`,
which differ in the links of the phrase. -/
def ofPhrasesAndConcepts (textCase : TextCase) (words : List PhraseRef)
    (concepts : List ConceptRef) : GraphProgram PhraseRef := do
  let heap ← get
  let texts := words.map fun word => (heap.content word).phrase textCase
  construct words concepts { name := listText texts ++ "Phrase" } ""

/-- `AnnotatedPhrase(word, concepts)`. -/
def ofWordAndConcepts (word : String) (concepts : List ConceptRef) : GraphProgram PhraseRef := do
  let empty ← ofWord word
  let it ← construct [empty] concepts { name := word ++ "Phrase" } word
  forM concepts fun concept => Concept.phrasesAdd concept it
  return it

/-- `AnnotatedPhrase(words, concept)`, where the words are texts. -/
def ofWordsAndConcept (words : List String) (concept : ConceptRef) : GraphProgram PhraseRef := do
  let phrases ← words.mapM ofWord
  let it ← construct phrases [concept] { name := listText words ++ "Phrase" } ""
  Concept.phrasesAdd concept it
  return it

end AnnotatedPhrase

namespace KBAnnotatorImpl

/-- What the annotator is given besides the phrases. -/
structure Setting where
  textCase : TextCase
  /-- The nodes of the domain model of the context. -/
  dmModel : List ConceptRef
  /-- `annotate`, of the external annotators in `AnnotatorRegistry`. -/
  annotators : List (String → List String)
  /-- How deep a recursion may go. -/
  stack : ℕ

section Search

variable {α β ε : Type}

/-- The first thing that is found for an element of the list. -/
def firstFound (check : α → Except ε (Option β)) : List α → Except ε (Option β)
  | [] => return none
  | a :: rest => do
      match ← check a with
      | some found => return some found
      | none => firstFound check rest

variable (setting : Setting) (heap : Heap)

/-- A phrase of the concept, or its content, is the given text. -/
def isMeant (phrase : String) (n : ConceptRef) : Except GraphFailure Bool :=
  let lower := setting.textCase.toLowerCase
  match (heap.concept n).phrases with
  | none => throw .nullPointer
  | some _ =>
      let currentText := (heap.phrasesOf n).values.map fun p =>
        trim (lower ((heap.content p).phrase setting.textCase))
      return currentText.count (trim (lower phrase)) > 0 ||
        lower (heap.concept n).content.value = lower phrase

/-- `checkList`, on a stack of the given depth. -/
def checkList (phrase : String) : ℕ → List ConceptRef → Except GraphFailure (Option ConceptRef)
  | 0, _ => throw .stackOverflow
  | depth + 1, lst => lst |> firstFound fun n => do
      if ← isMeant setting heap phrase n then return some n
      else if (heap.specialisations n).size > 0 then
        checkList phrase depth (heap.specialisations n).values
      else return none

/-- `checkLocalKB`. -/
def checkLocalKB (phrase : String) : Except GraphFailure (Option ConceptRef) :=
  checkList setting heap phrase setting.stack setting.dmModel

/-- The annotation of a phrase, by its text or by one of its synonyms. -/
def annotationFound (ph : PhraseRef) : Except GraphFailure (Option ConceptRef) := do
  let phrase := (heap.content ph).phrase setting.textCase
  match ← checkLocalKB setting heap phrase with
  | some ctp => return some ctp
  | none =>
      let synonymous := setting.annotators.flatMap fun a => a phrase
      firstFound (checkLocalKB setting heap) synonymous

end Search

/-- `appendAnnotation`. -/
def appendAnnotation (ref : PhraseRef) (ctp : ConceptRef) : GraphProgram Unit :=
  modify fun heap => { heap with
    phrases := heap.phrases.modify ref fun p => { p with concepts := [ctp] } }

/-- `annotatePhrase`. -/
def annotatePhrase (setting : Setting) (ph : PhraseRef) : GraphProgram Bool := do
  match annotationFound setting (← get) ph with
  | .ok (some ctp) =>
      appendAnnotation ph ctp
      return true
  | .ok none => return false
  | .error e => throw e

/-- `recurrentlyCheckPhrase`, on a stack of the given depth. -/
def recurrentlyCheckPhrase (setting : Setting) : ℕ → PhraseRef → GraphProgram Unit
  | 0, _ => throw .stackOverflow
  | depth + 1, ph => do
      if ← annotatePhrase setting ph then return ()
      else forM ((← get).phrase ph).phrases (recurrentlyCheckPhrase setting depth)

/-- `KBAnnotatorImpl.apply`, for the phrases of the sentences in the context. -/
def apply (setting : Setting) (extractedSentences : List Sentence) : GraphProgram Unit :=
  forM extractedSentences fun extractedPhrases =>
    forM extractedPhrases (recurrentlyCheckPhrase setting setting.stack)

/-! ### The phrases that are annotated -/

variable {setting : Setting} {heap : Heap} {ph : PhraseRef}

/-- What a run of `annotatePhrase` does. -/
theorem run_annotatePhrase (setting : Setting) (heap : Heap) (ph : PhraseRef) :
    (annotatePhrase setting ph).run heap =
      match annotationFound setting heap ph with
      | .ok (some ctp) => .ok true { heap with
          phrases := heap.phrases.modify ph fun p => { p with concepts := [ctp] } }
      | .ok none => .ok false heap
      | .error e => .error e heap := by
  rw [annotatePhrase]
  change EStateM.run (match annotationFound setting heap ph with
    | .ok (some ctp) => _ | .ok none => _ | .error e => _) heap = _
  cases annotationFound setting heap ph with
  | ok found => cases found <;> rfl
  | error e => rfl

end KBAnnotatorImpl

end ThinkingUnderstanding
