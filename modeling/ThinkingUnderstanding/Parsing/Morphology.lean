import ThinkingUnderstanding.Model.Heap

/-!
# Morphology with corrections

`RelexNLPProcessor` keeps one extractor for sentences that are processed with corrections.
It sets the annotated sentences of the call on the extractor and lets the extractor process
the sentence. While it does, relex looks up words on the `MorphyKB` object of the context.
This object has got a copy of the sentences of the extractor when the extractor was made, and
the setter of the extractor does not pass the new ones on. So every lookup consults the
sentences the extractor was made with, and `RelexNLPProcessor` makes it with none.

What relex finds for a word without corrections is a parameter, and which words it looks up
during a call is part of the call.

## Main definitions

* `MorphyKB.searchWord`, `MorphyKB.morph` — the word lookup
* `RelationExtractorKB.new`, `RelationExtractorKB.setSentences`,
  `RelationExtractorKB.processSentence`
* `RelexNLPProcessor.processSentence`, `RelexNLPProcessor.run` — a call, a sequence of calls

## Main results

* `Consults.processSentence` — a call changes no `MorphyKB` object
* `consulted_eq_of_mem_run` — what the lookups of a run consult
* `lookups_current_iff` — when they all consult the sentences of their call
-/

namespace ThinkingUnderstanding

open Math

/-- `Morphed`: a word and its roots by part of speech. -/
structure Morphed where
  original : String
  features : List (String × String) := []
  deriving DecidableEq, Repr

/-- What ends a lookup early. -/
inductive MorphFailure
  | unexpectedException (message : String)
  | stackOverflow
  deriving DecidableEq, Repr

/-- `AnnotatedSentence`. -/
structure CorrectedSentence where
  text : String := ""
  phrases : List PhraseRef := []
  deriving DecidableEq, Repr

/-- `MorphyKB`. -/
structure MorphyKB where
  sentences : List CorrectedSentence := []
  deriving DecidableEq, Repr, Inhabited

namespace MorphyKB

section

variable (heap : Heap)

/-- `MorphyKB.searchWord`. -/
def searchWord (aWord : String) (sentences : List CorrectedSentence) : List PhraseRef :=
  let phrases := sentences.flatMap CorrectedSentence.phrases
  phrases.filter fun phrase =>
    (heap.phrase phrase).phrases.countP (fun word => (heap.phrase word).text = aWord) > 0 ∨
      (heap.phrase phrase).text = aWord

/-- `MorphyKB.getConceptByName`. -/
def getConceptByName (concepts : List ConceptRef) (name : String) : Option ConceptRef :=
  concepts.find? fun concept => (heap.uri (heap.concept concept).uri).name = name ++ "Concept"

/-- `MorphyKB.mostGenericGeneralisation` of a list of concepts, on a stack of bounded
depth. -/
def mostGenericGeneralisations : ℕ → List ConceptRef → Option (List ConceptRef)
  | 0, _ => none
  | stack + 1, concepts => do
      let nonGeneralisedConcepts :=
        concepts.filter fun concept => (heap.generalisations concept).size = 0
      let generalisedConcepts :=
        concepts.filter fun concept => (heap.generalisations concept).size > 0
      let mostGenericConcepts ← generalisedConcepts.mapM fun concept =>
        mostGenericGeneralisations stack (heap.generalisations concept).values
      return mostGenericConcepts.flatten ++ nonGeneralisedConcepts

/-- `MorphyKB.mostGenericGeneralisation` of a concept. -/
def mostGenericGeneralisation (stack : ℕ) (concept : ConceptRef) : Option (List ConceptRef) :=
  if (heap.generalisations concept).size < 1 then some [concept]
  else mostGenericGeneralisations heap stack (heap.generalisations concept).values

/-- The part of speech that the most generic concepts of a phrase tell. -/
def correctedType (mostGenericConcepts : List ConceptRef) : Option String :=
  if (getConceptByName heap mostGenericConcepts "subject").isSome then some "noun"
  else if (getConceptByName heap mostGenericConcepts "object").isSome then some "noun"
  else if (getConceptByName heap mostGenericConcepts "action").isSome then some "verb"
  else if (getConceptByName heap mostGenericConcepts "desire").isSome then some "verb"
  else if (getConceptByName heap mostGenericConcepts "formOfPoliteness").isSome then some "adv"
  else none

/-- `MorphyKB.morph`. `wordNet` is what `MorphyJWNL.morph` finds for a word. -/
def morph (wordNet : String → Morphed) (stack : ℕ) (morphy : MorphyKB) (word : String) :
    Except MorphFailure Morphed :=
  let res := wordNet word
  match searchWord heap word morphy.sentences with
  | [] => .ok res
  | [phrase] =>
      match (heap.phrase phrase).concepts.mapM (mostGenericGeneralisation heap stack) with
      | none => .error .stackOverflow
      | some mostGenericConcepts =>
          match correctedType heap mostGenericConcepts.flatten with
          | some type => .ok { res with features := [(type, word)] }
          | none => .ok res
  | _ :: _ :: _ => .error (.unexpectedException "$Ambiguous_case")

end

end MorphyKB

/-- The `Morphy` object of a `RelexContext`: one of relex, or a `MorphyKB` object. -/
inductive Morphy
  | jwnl
  | kb (object : ℕ)
  deriving DecidableEq, Repr

/-- `RelationExtractorKB`, with the `Morphy` object of its context. -/
structure RelationExtractorKB where
  sentences : List CorrectedSentence
  context : Morphy
  deriving DecidableEq, Repr

/-- `RelexNLPProcessor`: the extractor for corrections, and the `MorphyKB` objects. -/
structure RelexNLPProcessor where
  morphies : Arena MorphyKB
  extractorWithCorrection : RelationExtractorKB

/-- A call of `RelexNLPProcessor.processSentence` with corrections, made when the objects are
those of `heap`. During it relex looks up the words one after another, until a lookup fails. -/
structure CorrectionCall where
  heap : Heap
  sent : String
  sentences : List CorrectedSentence
  words : List String

/-- A lookup of a word during a call, and the sentences searched for it. -/
structure WordLookup where
  call : CorrectionCall
  word : String
  consulted : List CorrectedSentence

namespace RelationExtractorKB

/-- `new RelationExtractorKB(useSocket, sentences, useKB)`. -/
def new (morphies : Arena MorphyKB) (sentences : List CorrectedSentence) (useKB : Bool) :
    RelationExtractorKB × Arena MorphyKB :=
  if useKB then
    -- `MorphyFactory` makes the object, then it gets the sentences
    let morphy := morphies.size
    let morphies := morphies.alloc {}
    ({ sentences, context := .kb morphy }, morphies.modify morphy fun m => { m with sentences })
  else ({ sentences, context := .jwnl }, morphies)

/-- `RelationExtractorKB.setSentences`. -/
def setSentences (extractor : RelationExtractorKB) (snts : List CorrectedSentence) :
    RelationExtractorKB :=
  { extractor with sentences := snts }

variable (wordNet : String → Morphed) (stack : ℕ)

/-- The lookups that relex makes on the `Morphy` object of the context. -/
def lookUp (morphies : Arena MorphyKB) (context : Morphy) (call : CorrectionCall) :
    List String → List WordLookup
  | [] => []
  | word :: words =>
      match context with
      | .jwnl => []
      | .kb object =>
          let morphy := morphies.get object
          let lookup := { call, word, consulted := morphy.sentences }
          match morphy.morph call.heap wordNet stack word with
          | .ok _ => lookup :: lookUp morphies context call words
          | .error _ => [lookup]

/-- `RelationExtractorKB.processSentence`, as far as it looks up words. -/
def processSentence (extractor : RelationExtractorKB) (morphies : Arena MorphyKB)
    (call : CorrectionCall) :
    List WordLookup :=
  lookUp wordNet stack morphies extractor.context call call.words

end RelationExtractorKB

namespace RelexNLPProcessor

/-- The object `RelexNLPProcessor` at the start. -/
def initial : RelexNLPProcessor :=
  let (extractorWithCorrection, morphies) := RelationExtractorKB.new .empty [] true
  { morphies, extractorWithCorrection }

variable (wordNet : String → Morphed) (stack : ℕ)

/-- `RelexNLPProcessor.processSentence` with corrections, and the lookups made during it. -/
def processSentence (processor : RelexNLPProcessor) (call : CorrectionCall) :
    RelexNLPProcessor × List WordLookup :=
  let extractor := processor.extractorWithCorrection.setSentences call.sentences
  ({ processor with extractorWithCorrection := extractor },
    extractor.processSentence wordNet stack processor.morphies call)

/-- A sequence of calls, and the lookups made during them. -/
def run (processor : RelexNLPProcessor) : List CorrectionCall → RelexNLPProcessor × List WordLookup
  | [] => (processor, [])
  | call :: calls =>
      let (processor, lookups) := processor.processSentence wordNet stack call
      let (processor, later) := run processor calls
      (processor, lookups ++ later)

/-- The `MorphyKB` object of the context of the extractor holds these sentences. -/
def Consults (processor : RelexNLPProcessor) (sentences : List CorrectedSentence) : Prop :=
  ∃ object, processor.extractorWithCorrection.context = .kb object ∧
    (processor.morphies.get object).sentences = sentences

variable {wordNet stack} {processor : RelexNLPProcessor} {sentences : List CorrectedSentence}
  {call : CorrectionCall} {calls : List CorrectionCall} {lookup : WordLookup}

/-- An extractor made with sentences has them in the `MorphyKB` object of its context. -/
theorem consults_new (morphies : Arena MorphyKB) (sentences : List CorrectedSentence) :
    Consults
      { morphies := (RelationExtractorKB.new morphies sentences true).2
        extractorWithCorrection := (RelationExtractorKB.new morphies sentences true).1 }
      sentences := by
  refine ⟨morphies.size, rfl, ?_⟩
  simp [RelationExtractorKB.new]

/-- A call sets the sentences of the extractor, and changes no `MorphyKB` object. -/
theorem Consults.processSentence (consults : processor.Consults sentences) :
    (processor.processSentence wordNet stack call).1.Consults sentences := consults

/-- Relex looks up no other words than those of the call, the first one among them. -/
theorem mem_lookUp {object : ℕ} {morphies : Arena MorphyKB} {words : List String}
    (member : lookup ∈ RelationExtractorKB.lookUp wordNet stack morphies (.kb object) call words) :
    lookup.call = call ∧ lookup.word ∈ words ∧
      lookup.consulted = (morphies.get object).sentences := by
  induction words with
  | nil => cases member
  | cons word words ih =>
    simp only [RelationExtractorKB.lookUp] at member
    split at member
    · rcases List.mem_cons.mp member with rfl | later
      · exact ⟨rfl, List.mem_cons_self, rfl⟩
      · obtain ⟨same, listed, consulted⟩ := ih later
        exact ⟨same, List.mem_cons_of_mem word listed, consulted⟩
    · obtain rfl := List.mem_singleton.mp member
      exact ⟨rfl, List.mem_cons_self, rfl⟩

theorem exists_mem_lookUp {object : ℕ} {morphies : Arena MorphyKB} {words : List String}
    (asked : words ≠ []) :
    ∃ lookup ∈ RelationExtractorKB.lookUp wordNet stack morphies (.kb object) call words,
      lookup.call = call := by
  cases words with
  | nil => exact absurd rfl asked
  | cons word words =>
    rw [RelationExtractorKB.lookUp]
    split
    · exact ⟨_, List.mem_cons_self, rfl⟩
    · exact ⟨_, List.mem_cons_self, rfl⟩

/-- The lookups of a call consult what the `MorphyKB` object of the context holds. -/
theorem consulted_eq_of_mem_processSentence (consults : processor.Consults sentences)
    (member : lookup ∈ (processor.processSentence wordNet stack call).2) :
    lookup.call = call ∧ call.words ≠ [] ∧ lookup.consulted = sentences := by
  obtain ⟨object, context, rfl⟩ := consults
  simp only [RelexNLPProcessor.processSentence, RelationExtractorKB.processSentence,
    RelationExtractorKB.setSentences, context] at member
  obtain ⟨same, listed, consulted⟩ := mem_lookUp member
  exact ⟨same, List.ne_nil_of_mem listed, consulted⟩

theorem exists_mem_processSentence (consults : processor.Consults sentences)
    (asked : call.words ≠ []) :
    ∃ lookup ∈ (processor.processSentence wordNet stack call).2, lookup.call = call := by
  obtain ⟨object, context, -⟩ := consults
  simp only [RelexNLPProcessor.processSentence, RelationExtractorKB.processSentence,
    RelationExtractorKB.setSentences, context]
  exact exists_mem_lookUp asked

/-- However many calls there are, all lookups consult the sentences of the construction. -/
theorem consulted_eq_of_mem_run (consults : processor.Consults sentences)
    (member : lookup ∈ (processor.run wordNet stack calls).2) :
    lookup.call ∈ calls ∧ lookup.call.words ≠ [] ∧ lookup.consulted = sentences := by
  induction calls generalizing processor with
  | nil => cases member
  | cons call calls ih =>
    rcases List.mem_append.mp member with now | later
    · obtain ⟨rfl, asked, consulted⟩ := consulted_eq_of_mem_processSentence consults now
      exact ⟨List.mem_cons_self, asked, consulted⟩
    · have kept : (processor.processSentence wordNet stack call).1.Consults sentences :=
        consults.processSentence
      obtain ⟨listed, asked, consulted⟩ := ih kept later
      exact ⟨List.mem_cons_of_mem call listed, asked, consulted⟩

theorem exists_mem_run (consults : processor.Consults sentences) (listed : call ∈ calls)
    (asked : call.words ≠ []) :
    ∃ lookup ∈ (processor.run wordNet stack calls).2, lookup.call = call := by
  induction calls generalizing processor with
  | nil => cases listed
  | cons first calls ih =>
    rcases List.mem_cons.mp listed with rfl | later
    · obtain ⟨lookup, member, same⟩ := exists_mem_processSentence consults asked
      exact ⟨lookup, List.mem_append_left _ member, same⟩
    · have kept : (processor.processSentence wordNet stack first).1.Consults sentences :=
        consults.processSentence
      obtain ⟨lookup, member, same⟩ := ih kept later
      exact ⟨lookup, List.mem_append_right _ member, same⟩

/-- All lookups of a sequence of calls consult the annotated sentences of their own call
exactly when no call during which a word is looked up comes with any. -/
theorem lookups_current_iff (wordNet : String → Morphed) (stack : ℕ) (calls : List CorrectionCall) :
    (∀ lookup ∈ (initial.run wordNet stack calls).2,
      lookup.consulted = lookup.call.sentences) ↔
      ∀ call ∈ calls, call.words ≠ [] → call.sentences = [] := by
  have consults : initial.Consults [] := consults_new .empty []
  constructor
  · intro current call listed asked
    obtain ⟨lookup, member, rfl⟩ := exists_mem_run consults listed asked
    obtain ⟨-, -, none⟩ := consulted_eq_of_mem_run consults member
    rw [← current lookup member, none]
  · intro uncorrected lookup member
    obtain ⟨listed, asked, none⟩ := consulted_eq_of_mem_run consults member
    rw [none, uncorrected lookup.call listed asked]

/-- One call with a correction for its word. -/
def browserCall : CorrectionCall where
  heap := { phrases := .ofList [{ text := "browser" }] }
  sent := "browser"
  sentences := [{ text := "browser", phrases := [0] }]
  words := ["browser"]

/-- The word is looked up without the correction. -/
theorem browserCall_consults_stale_sentences :
    ¬ ∀ lookup ∈ (initial.run (fun word => { original := word }) 1 [browserCall]).2,
      lookup.consulted = lookup.call.sentences := by
  intro current
  have consulted := current ⟨browserCall, "browser", []⟩ List.mem_cons_self
  cases consulted

end RelexNLPProcessor

end ThinkingUnderstanding
