import Mathlib.Data.List.Sort
import ThinkingUnderstanding.Model.Heap
import ThinkingUnderstanding.Parsing.PreliminarySplitter

/-!
# The order of the sentences

`PreliminarySplitter.apply` corrects a text, has it split into sentences, and makes an annotated
sentence of each. A loop goes through the sentences with a counter for their names, the frames of
the output context, and the list of annotated sentences. Each new sentence is put at the front of
this list, so the narrative has them last to first. Within a sentence the phrases are sorted.

The corrector and relex are parameters: which sentences a text is split into, and the root of the
feature tree of the first parse of a sentence.

## Main definitions

* `PreliminarySplitter.splitSentence`, `PreliminarySplitter.apply` — the loop, and the action
* `KeepsOrder` — the contract of the narrative
* `OrderKept` — the narrative of an input keeps it, if there is one

## Main results

* `exists_foldlM_splitSentence_eq` — what the loop leaves, by induction on the sentences
* `orderKept_iff` — when the order is kept
-/

namespace ThinkingUnderstanding

/-- `AnnotatedPhrase.sentenceIndex`, as the phrase is made with it. -/
def PhraseContent.sentenceIndex : PhraseContent → ℚ
  | mk _ sentenceIndex _ => sentenceIndex

namespace PreliminarySplitter

/-- An `AnnotatedSentence` that is made by the splitter. -/
structure SplitSentence where
  text : String
  phrases : List PhraseContent
  uri : KnowledgeURI

/-- An `AnnotatedNarrative` that is made by the splitter. -/
structure SplitNarrative where
  sentences : List SplitSentence
  uri : KnowledgeURI

/-- A resource in a frame, as far as the splitter looks into it or makes it. -/
inductive SplitResource
  | knowledgeString (value : String) (uri : KnowledgeURI)
  | cry4Help (message : String)
  | annotatedNarrative (narrative : SplitNarrative)
  | other

/-- An output context: its frames, and its last result. -/
structure SplitContext where
  frames : List (KnowledgeURI × SplitResource)
  lastResult : Option SplitNarrative

/-- What is called outside the splitter. -/
structure SplitServices where
  /-- `SpellCorrector().correctSentence`. -/
  correctSentence : String → Except ParseFailure String
  /-- `relexServer.splitSentences`. -/
  splitSentences : String → List String
  /-- `relexServer.processSentence(_).getParses.get(0).getLeft.get("head")`. -/
  head : String → Except ParseFailure FeatureNode

/-- `sentenceURI`. -/
def sentenceURI : KnowledgeURI := { name := "sentence" }

/-- The variables of the loop. -/
structure SplitState where
  sntOrder : ℕ := 1
  frames : List (KnowledgeURI × SplitResource) := []
  annotatedSentences : List SplitSentence := []

/-- The phrases of a sentence, sorted by their index. -/
def sortedPhrases (services : SplitServices) (sentence : String) :
    Except ParseFailure (List PhraseContent) := do
  let phrases ← processNodeRec (← services.head sentence)
  return phrases.mergeSort fun a b => a.sentenceIndex ≤ b.sentenceIndex

/-- The name of the sentence of a number. -/
def sentenceName (sntOrder : ℕ) : String := sentenceURI.name ++ "-" ++ toString sntOrder

/-- `AnnotatedSentence(sentence, phrases, uri)`, with the URI of the number. -/
def annotatedSentence (sntOrder : ℕ) (sentence : String) (phrases : List PhraseContent) :
    SplitSentence where
  text := sentence
  phrases := phrases
  uri := { name := sentenceName sntOrder }

/-- The body of the loop of `apply`. -/
def splitSentence (services : SplitServices) (s : SplitState) (sentence : String) :
    Except ParseFailure SplitState := do
  let phrases ← sortedPhrases services sentence
  return {
    sntOrder := s.sntOrder + 1
    frames := s.frames ++
      [({ name := sentenceName s.sntOrder }, .knowledgeString sentence sentenceURI)]
    annotatedSentences := annotatedSentence s.sntOrder sentence phrases :: s.annotatedSentences }

/-- `outputContext.lastResult = Some(annotatedNarrative)`, which files the narrative too. -/
def SplitState.output (s : SplitState) (annotatedNarrative : SplitNarrative) : SplitContext where
  frames := s.frames ++ [(annotatedNarrative.uri, .annotatedNarrative annotatedNarrative)]
  lastResult := some annotatedNarrative

/-- `PreliminarySplitter.apply`, on the frames of the input context. -/
def apply (services : SplitServices) (frames : List (KnowledgeURI × SplitResource)) :
    Except ParseFailure SplitContext :=
  match frames.filter fun p => p.1.name = "inputtext" with
  | [] =>
      .ok {
        frames := [({ name := "Cry4HelpMessage" }, .cry4Help "$Could_not_find inputtext")]
        lastResult := none }
  | textFrame :: _ =>
      match textFrame.2 with
      | .knowledgeString value _ => do
          let text ← services.correctSentence value
          let split ← (services.splitSentences text).foldlM (splitSentence services) {}
          return split.output {
            sentences := split.annotatedSentences
            uri := { name := "tu.coreservice.splitter.PreliminarySplitter result" } }
      | _ => .error (.runtimeException "java.lang.ClassCastException")

/-- The narrative has the sentences in order, numbered from one, each with its own phrases in the
order of their indices. -/
structure KeepsOrder (services : SplitServices) (sentences : List String)
    (narrative : SplitNarrative) : Prop where
  texts : narrative.sentences.map SplitSentence.text = sentences
  names : narrative.sentences.map (fun s => s.uri.name) =
    (List.range' 1 sentences.length).map sentenceName
  phrases : ∀ s ∈ narrative.sentences, ∃ head found, services.head s.text = .ok head ∧
    processNodeRec head = .ok found ∧ s.phrases.Perm found
  sorted : ∀ s ∈ narrative.sentences,
    s.phrases.Pairwise fun a b => a.sentenceIndex ≤ b.sentenceIndex

/-- The narrative that is produced for a text that is split into the sentences keeps their
order. -/
def OrderKept (services : SplitServices) (frames : List (KnowledgeURI × SplitResource))
    (sentences : List String) : Prop :=
  ∀ out narrative, apply services frames = .ok out → out.lastResult = some narrative →
    KeepsOrder services sentences narrative

/-- The walk through the tree of the sentence ends with an exception, or there is no tree. -/
def Fails (services : SplitServices) (sentence : String) : Prop :=
  ∀ phrases, sortedPhrases services sentence ≠ .ok phrases

variable {services : SplitServices} {frames : List (KnowledgeURI × SplitResource)}
  {sentences : List String}

/-- The phrases are those of the walk, in the order of their indices. -/
theorem sortedPhrases_eq_ok {sentence : String} {phrases : List PhraseContent}
    (walked : sortedPhrases services sentence = .ok phrases) :
    (∃ head found, services.head sentence = .ok head ∧ processNodeRec head = .ok found ∧
      phrases.Perm found) ∧
      phrases.Pairwise fun a b => a.sentenceIndex ≤ b.sentenceIndex := by
  obtain ⟨head, has, walked⟩ := bind_eq_ok_iff.mp walked
  obtain ⟨found, walk, same⟩ := bind_eq_ok_iff.mp walked
  obtain rfl := Except.ok.inj same
  refine ⟨⟨head, found, has, walk, List.mergeSort_perm _ _⟩, ?_⟩
  exact List.pairwise_mergeSort' (Order.Preimage PhraseContent.sentenceIndex (· ≤ ·)) found

/-- The sentences that the loop makes of a list, in the order of the list. -/
def numbered (phrasesOf : String → List PhraseContent) (first : ℕ) :
    List String → List SplitSentence
  | [] => []
  | sentence :: rest =>
      annotatedSentence first sentence (phrasesOf sentence) :: numbered phrasesOf (first + 1) rest

theorem map_text_numbered (phrasesOf : String → List PhraseContent) (first : ℕ) :
    (numbered phrasesOf first sentences).map SplitSentence.text = sentences := by
  induction sentences generalizing first with
  | nil => rfl
  | cons sentence rest ih => rw [numbered, List.map_cons, ih]; rfl

theorem map_name_numbered (phrasesOf : String → List PhraseContent) (first : ℕ) :
    (numbered phrasesOf first sentences).map (fun s => s.uri.name) =
      (List.range' first sentences.length).map sentenceName := by
  induction sentences generalizing first with
  | nil => rfl
  | cons sentence rest ih => rw [numbered, List.map_cons, ih, List.length_cons]; rfl

theorem phrases_of_mem_numbered {phrasesOf : String → List PhraseContent} {first : ℕ}
    {s : SplitSentence} (member : s ∈ numbered phrasesOf first sentences) :
    s.text ∈ sentences ∧ s.phrases = phrasesOf s.text := by
  induction sentences generalizing first with
  | nil => cases member
  | cons sentence rest ih =>
    rcases List.mem_cons.mp member with rfl | later
    · exact ⟨List.mem_cons_self, rfl⟩
    · exact (ih later).imp_left (List.mem_cons_of_mem _)

theorem numbered_append (phrasesOf : String → List PhraseContent) (first : ℕ)
    (sentence : String) : numbered phrasesOf first (sentences ++ [sentence]) =
      numbered phrasesOf first sentences ++
        [annotatedSentence (first + sentences.length) sentence (phrasesOf sentence)] := by
  induction sentences generalizing first with
  | nil => rfl
  | cons s rest ih =>
    have number : first + 1 + rest.length = first + (s :: rest).length := by
      rw [List.length_cons]
      omega
    rw [List.cons_append, numbered, ih, numbered, List.cons_append, number]

/-- The loop ends normally when no sentence fails, and leaves the numbered sentences in front of
those there were, the last one first. -/
theorem exists_foldlM_splitSentence_eq {phrasesOf : String → List PhraseContent}
    (walks : ∀ s ∈ sentences, sortedPhrases services s = .ok (phrasesOf s)) (s : SplitState) :
    ∃ t, sentences.foldlM (splitSentence services) s = .ok t ∧
      t.annotatedSentences =
        (numbered phrasesOf s.sntOrder sentences).reverse ++ s.annotatedSentences := by
  induction sentences generalizing s with
  | nil => exact ⟨s, rfl, rfl⟩
  | cons sentence rest ih =>
    rw [List.forall_mem_cons] at walks
    rw [List.foldlM_cons, splitSentence, walks.1]
    obtain ⟨t, loop, made⟩ := ih walks.2 {
      sntOrder := s.sntOrder + 1
      frames := s.frames ++
        [({ name := sentenceName s.sntOrder }, .knowledgeString sentence sentenceURI)]
      annotatedSentences :=
        annotatedSentence s.sntOrder sentence (phrasesOf sentence) :: s.annotatedSentences }
    refine ⟨t, loop, ?_⟩
    rw [made, numbered, List.reverse_cons, List.append_assoc]
    rfl

/-- The loop does not end normally when a sentence fails. -/
theorem foldlM_splitSentence_ne_ok {sentence : String} (member : sentence ∈ sentences)
    (fails : Fails services sentence) (s t : SplitState) :
    sentences.foldlM (splitSentence services) s ≠ .ok t := by
  induction sentences generalizing s with
  | nil => cases member
  | cons first rest ih =>
    intro loop
    rw [List.foldlM_cons] at loop
    obtain ⟨s', one, loop⟩ := bind_eq_ok_iff.mp loop
    rcases List.mem_cons.mp member with rfl | later
    · obtain ⟨phrases, walked, -⟩ := bind_eq_ok_iff.mp one
      exact fails phrases walked
    · exact ih later s' loop

/-- Only the first number has the name of the first sentence. -/
theorem eq_one_of_sentenceName_eq {n : ℕ} (same : sentenceName n = sentenceName 1) : n = 1 := by
  have digits : n.repr = Nat.repr 1 := (String.append_right_inj _).mp same
  have small : n < 10 := by
    have short : n.repr.length ≤ 1 := by rw [digits]; decide
    simpa using (Nat.length_repr_le_iff Nat.one_pos).mp short
  have all : ∀ n < 10, Nat.repr n = Nat.repr 1 → n = 1 := by decide
  exact all n small digits

/-- Numbered sentences in reverse are in order only when there is at most one. -/
theorem keepsOrder_reverse_iff {phrasesOf : String → List PhraseContent}
    (walks : ∀ s ∈ sentences, sortedPhrases services s = .ok (phrasesOf s)) (uri : KnowledgeURI) :
    KeepsOrder services sentences ⟨(numbered phrasesOf 1 sentences).reverse, uri⟩ ↔
      sentences.length ≤ 1 := by
  constructor
  · intro keeps
    -- the first sentence of the narrative has the last number
    rcases List.eq_nil_or_concat' sentences with rfl | ⟨before, last, rfl⟩
    · exact Nat.zero_le _
    · have names := keeps.names
      rw [numbered_append, List.reverse_append, List.reverse_singleton, List.singleton_append,
        List.map_cons, List.length_append, List.length_singleton, List.range'_succ,
        List.map_cons] at names
      have number := eq_one_of_sentenceName_eq (List.head_eq_of_cons_eq names)
      rw [List.length_append, List.length_singleton]
      omega
  · intro few
    have single : (numbered phrasesOf 1 sentences).reverse = numbered phrasesOf 1 sentences := by
      match sentences, few with
      | [], _ => rfl
      | [_], _ => rfl
    rw [single]
    have own : ∀ s ∈ numbered phrasesOf 1 sentences,
        sortedPhrases services s.text = .ok s.phrases := by
      intro s member
      obtain ⟨present, same⟩ := phrases_of_mem_numbered member
      rw [same]
      exact walks s.text present
    constructor
    case texts => exact map_text_numbered phrasesOf 1
    case names => exact map_name_numbered phrasesOf 1
    case phrases => exact fun s member => (sortedPhrases_eq_ok (own s member)).1
    case sorted => exact fun s member => (sortedPhrases_eq_ok (own s member)).2

section

variable {value text : String} {name uri : KnowledgeURI}
  {more : List (KnowledgeURI × SplitResource)}
  (found : (frames.filter fun p => p.1.name = "inputtext") =
    (name, .knowledgeString value uri) :: more)
  (corrected : services.correctSentence value = .ok text)
  (split : services.splitSentences text = sentences)

include found corrected split

theorem apply_eq_ok_iff {out : SplitContext} : apply services frames = .ok out ↔
    ∃ t, sentences.foldlM (splitSentence services) {} = .ok t ∧
      out = t.output {
        sentences := t.annotatedSentences
        uri := { name := "tu.coreservice.splitter.PreliminarySplitter result" } } := by
  rw [apply, found]
  simp only [corrected]
  refine (bind_eq_ok_iff.trans ?_)
  constructor
  · rintro ⟨_, ⟨⟩, run⟩
    rw [split] at run
    obtain ⟨t, loop, same⟩ := bind_eq_ok_iff.mp run
    exact ⟨t, loop, (Except.ok.inj same).symm⟩
  · rintro ⟨t, loop, rfl⟩
    refine ⟨text, rfl, ?_⟩
    rw [split]
    exact bind_eq_ok_iff.mpr ⟨t, loop, rfl⟩

/-- The order is kept exactly when there is at most one sentence, or a sentence fails and there is
no narrative. -/
theorem orderKept_iff : OrderKept services frames sentences ↔
    sentences.length ≤ 1 ∨ ∃ sentence ∈ sentences, Fails services sentence := by
  by_cases failing : ∃ sentence ∈ sentences, Fails services sentence
  · refine iff_of_true (fun out narrative applied _ => ?_) (Or.inr failing)
    obtain ⟨sentence, member, fails⟩ := failing
    obtain ⟨t, loop, -⟩ := (apply_eq_ok_iff found corrected split).mp applied
    exact absurd loop (foldlM_splitSentence_ne_ok member fails {} t)
  · rw [or_iff_left failing]
    have walked : ∀ sentence ∈ sentences, ∃ phrases,
        sortedPhrases services sentence = .ok phrases := by
      intro sentence member
      by_contra none
      exact failing ⟨sentence, member, fun phrases walk => none ⟨phrases, walk⟩⟩
    choose! phrasesOf walks using walked
    -- otherwise the narrative is the numbered sentences in reverse
    obtain ⟨t, loop, made⟩ := exists_foldlM_splitSentence_eq walks {}
    rw [List.append_nil] at made
    have applied := (apply_eq_ok_iff found corrected split).mpr ⟨t, loop, rfl⟩
    rw [made] at applied
    rw [← keepsOrder_reverse_iff walks]
    constructor
    · exact fun kept => kept _ _ applied rfl
    · intro keeps out narrative applied' result
      obtain rfl := Except.ok.inj (applied.symm.trans applied')
      obtain rfl := Option.some.inj result
      exact keeps

end

/-! ### Two sentences -/

/-- A text of sentences that are single words, separated by blanks. -/
def wordByWord : SplitServices where
  correctSentence text := .ok text
  splitSentences text := split text ' '
  head sentence := .ok (.node { name := some sentence } [] none)

/-- The frames of a context with a text. -/
def inputText (text : String) : List (KnowledgeURI × SplitResource) :=
  [({ name := "inputtext" }, .knowledgeString text { name := "inputtext" })]

/-- A text of one sentence is in order. -/
theorem orderKept_help : OrderKept wordByWord (inputText "Help!") ["Help!"] :=
  (orderKept_iff rfl rfl (by decide +kernel)).mpr (Or.inl le_rfl)

theorem sortedPhrases_wordByWord {sentence : String} (single : '_' ∉ sentence.toList) :
    sortedPhrases wordByWord sentence = .ok [PhraseContent.ofWord sentence 0] := by
  have walk : processNodeRec (.node { name := some sentence } [] none) =
      .ok [PhraseContent.ofWord sentence 0] := by
    refine processNodeRec_node_eq_ok_iff.mpr ⟨sentence, 0, _, [], rfl, rfl, ?_, rfl, rfl⟩
    rw [currentPhrase, if_neg single]
    rfl
  refine bind_eq_ok_iff.mpr ⟨_, rfl, bind_eq_ok_iff.mpr ⟨_, walk, ?_⟩⟩
  exact congrArg Except.ok (List.mergeSort_singleton _)

/-- The second sentence is the first one of the narrative. -/
theorem not_orderKept_help_me : ¬ OrderKept wordByWord (inputText "Help! Please.")
    (wordByWord.splitSentences "Help! Please.") := by
  intro kept
  have two : wordByWord.splitSentences "Help! Please." = ["Help!", "Please."] := by decide +kernel
  have walks : ∀ s ∈ ["Help!", "Please."],
      sortedPhrases wordByWord s = .ok [PhraseContent.ofWord s 0] := by
    have single : ∀ s ∈ ["Help!", "Please."], '_' ∉ s.toList := by decide +kernel
    exact fun s member => sortedPhrases_wordByWord (single s member)
  obtain ⟨t, loop, made⟩ := exists_foldlM_splitSentence_eq walks {}
  have applied := (@apply_eq_ok_iff _ (inputText "Help! Please.") _ _ _ _ _ _ rfl rfl two _).mpr
    ⟨t, loop, rfl⟩
  have texts := (kept _ _ applied rfl).texts
  rw [two, made] at texts
  exact absurd texts (by decide)

end PreliminarySplitter

end ThinkingUnderstanding
