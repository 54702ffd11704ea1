import ThinkingUnderstanding.Relex.EntityMaintainer

/-!
# The entities of earlier sentences

`RelexNLPProcessor` has one `EntityMaintainer` for all sentences, and its tagger is never reset. So
a sentence is converted with its own entities and those of all sentences before it, at the indices
that they have there. When one of them begins behind the end of the sentence, the conversion raises
an exception, and the sentence is not parsed.

## Main definitions

* `RelexNLPProcessor.em` — the tagger after some calls
* `RelexNLPProcessor.known` — the entities of some sentences

## Main results

* `EntityMaintainer.convertEntities_eq_none_iff` — when entities from elsewhere raise an exception
* `RelexNLPProcessor.convertSentence_eq_none_iff` — the calls that fail
-/

namespace ThinkingUnderstanding

open EntityMaintainer

/-- The entities stay apart, and every one is from a sentence. -/
structure EntityTagger.Sound (tagger : EntityTagger) : Prop where
  apart : Math.Apart EntityInfo.firstCharIndex EntityInfo.lastCharIndex 0 tagger
  found : ∀ e ∈ tagger, ∃ sentence, e.FoundIn sentence

namespace EntityTagger.Sound

theorem nil : EntityTagger.Sound [] := ⟨Math.apart_nil, fun _ member =>
  absurd member List.not_mem_nil⟩

theorem tagEntities {tagger : EntityTagger} (sound : tagger.Sound) (sentence : List Char) :
    EntityTagger.Sound (EntityTaggerBasic.tagEntities tagger sentence) where
  apart := EntityTaggerBasic.apart_tagEntities sound.apart
  found e member := by
    rcases (EntityTaggerBasic.mem_tagEntities sound.apart).2 e member with old | new
    · exact sound.found e old
    · exact ⟨sentence, new⟩

end EntityTagger.Sound

namespace EntityMaintainer

variable {es : EntityTagger} {curIndex : ℕ} {m : EntityMaintainer}

/-- An entity is converted that begins within the sentence. -/
theorem exists_convertEntity {e : EntityInfo} {text : String} (begins : curIndex ≤ e.firstCharIndex)
    (within : e.firstCharIndex ≤ m.originalSentence.length)
    (plain : m.originalSentence[e.lastCharIndex]? ≠ some '.')
    (named : e.idStringPrefix = some text) : ∃ m', m'.originalSentence = m.originalSentence ∧
      convertEntity e curIndex m = (e, some (e.lastCharIndex, m')) := by
  have start : ¬ (e.firstCharIndex < curIndex ∧ e.firstCharIndex + 1 ≠ curIndex) := by omega
  have taken : takePeriod m.originalSentence e = e := if_neg plain
  obtain ⟨m₁, made, original⟩ : ∃ m₁, (m.append (EntityInfo.slice m.originalSentence
      (min curIndex e.firstCharIndex) e.firstCharIndex)).insertLeading.makeID e = some m₁ ∧
        m₁.originalSentence = m.originalSentence := by
    rw [makeID, named]
    exact ⟨_, rfl, originalSentence_insertLeading⟩
  refine ⟨(m₁.insertPeriod e).insertTrailing e, ?_, ?_⟩
  · rw [originalSentence_insertTrailing, originalSentence_insertPeriod, original]
  · rw [convertEntity, if_neg start, if_neg (not_lt.mpr within), taken]
    simp only [made]

/-- Entities from anywhere are converted, as long as they begin within the sentence. None of them
is changed when no period follows. -/
theorem convertEntities_eq_none_iff
    (apart : Math.Apart EntityInfo.firstCharIndex EntityInfo.lastCharIndex curIndex es)
    (found : ∀ e ∈ es, ∃ sentence, e.FoundIn sentence)
    (plain : ∀ e ∈ es, m.originalSentence[e.lastCharIndex]? ≠ some '.') :
    (convertEntities es curIndex m).1 = es ∧
      ((convertEntities es curIndex m).2 = none ↔
        ∃ e ∈ es, m.originalSentence.length < e.firstCharIndex) := by
  induction es generalizing curIndex m with
  | nil => exact ⟨rfl, by simp [convertEntities]⟩
  | cons e es ih =>
    obtain ⟨begins, -, later⟩ := apart
    rw [List.forall_mem_cons] at found plain
    rw [List.exists_mem_cons_iff]
    by_cases beyond : m.originalSentence.length < e.firstCharIndex
    · have start : ¬ (e.firstCharIndex < curIndex ∧ e.firstCharIndex + 1 ≠ curIndex) := by omega
      have failed : convertEntity e curIndex m = (e, none) := by
        rw [convertEntity, if_neg start, if_pos beyond]
      rw [convertEntities, failed]
      exact ⟨rfl, iff_of_true rfl (Or.inl beyond)⟩
    · obtain ⟨sentence, here⟩ := found.1
      obtain ⟨text, -, named⟩ := here.named
      obtain ⟨m', original, step⟩ := exists_convertEntity begins (not_lt.mp beyond) plain.1 named
      rw [← original] at plain
      obtain ⟨same, fails⟩ := ih later found.2 plain.2
      rw [original] at fails
      simp only [convertEntities, step, same, fails, beyond, false_or, and_self]

end EntityMaintainer

/-! ### One maintainer for all sentences -/

namespace RelexNLPProcessor

/-- The tagger of `RelexNLPProcessor.em`, after the sentences have been converted. -/
def em (tagger : EntityTagger) (sentences : List (List Char)) : EntityTagger :=
  sentences.foldl (fun tagger sentence => (convertSentence tagger sentence).1) tagger

/-- The entities of the tagger and of the sentences. -/
def known (tagger : EntityTagger) (sentences : List (List Char)) : EntityTagger :=
  sentences.foldl EntityTaggerBasic.tagEntities tagger

/-- No entity of a sentence or of one before it ends where there is a period in the sentence. -/
def NoPeriodTaken : EntityTagger → List (List Char) → Prop
  | _, [] => True
  | tagger, sentence :: sentences =>
      (∀ e ∈ EntityTaggerBasic.tagEntities tagger sentence,
        sentence[e.lastCharIndex]? ≠ some '.') ∧
      NoPeriodTaken (EntityTaggerBasic.tagEntities tagger sentence) sentences

instance decidableNoPeriodTaken : (tagger : EntityTagger) → (sentences : List (List Char)) →
    Decidable (NoPeriodTaken tagger sentences)
  | _, [] => isTrue trivial
  | _, _ :: sentences => @instDecidableAnd _ _ inferInstance (decidableNoPeriodTaken _ sentences)

variable {tagger : EntityTagger} {sentence : List Char} {sentences : List (List Char)}

theorem known_append : known tagger (sentences ++ [sentence]) =
    EntityTaggerBasic.tagEntities (known tagger sentences) sentence := by
  rw [known, List.foldl_append]
  rfl

/-- One call. -/
theorem convertSentence_iff (sound : tagger.Sound)
    (plain : ∀ e ∈ EntityTaggerBasic.tagEntities tagger sentence,
      sentence[e.lastCharIndex]? ≠ some '.') :
    (convertSentence tagger sentence).1 = EntityTaggerBasic.tagEntities tagger sentence ∧
      ((convertSentence tagger sentence).2 = none ↔
        ∃ e ∈ EntityTaggerBasic.tagEntities tagger sentence,
          sentence.length < e.firstCharIndex) := by
  have tagged := sound.tagEntities sentence
  obtain ⟨same, fails⟩ := convertEntities_eq_none_iff
    (m := { originalSentence := sentence }) tagged.apart tagged.found plain
  rw [convertSentence, createConvertedSentence]
  cases here : EntityTaggerBasic.tagEntities tagger sentence with
  | nil => exact ⟨rfl, by simp⟩
  | cons e es =>
    rw [here] at same fails
    simp only [List.isEmpty_cons, Bool.false_eq_true, if_false, Option.map_eq_none_iff]
    exact ⟨same, fails⟩

/-- The tagger has the entities of all sentences, unchanged. -/
theorem em_eq_known (sound : tagger.Sound) (plain : NoPeriodTaken tagger sentences) :
    em tagger sentences = known tagger sentences ∧ (known tagger sentences).Sound := by
  induction sentences generalizing tagger with
  | nil => exact ⟨rfl, sound⟩
  | cons sentence sentences ih =>
    obtain ⟨here, later⟩ := plain
    rw [em, known, List.foldl_cons, List.foldl_cons, (convertSentence_iff sound here).1]
    exact ih (sound.tagEntities sentence) later

theorem NoPeriodTaken.of_append (plain : NoPeriodTaken tagger (sentences ++ [sentence])) :
    NoPeriodTaken tagger sentences ∧
      ∀ e ∈ EntityTaggerBasic.tagEntities (known tagger sentences) sentence,
        sentence[e.lastCharIndex]? ≠ some '.' := by
  induction sentences generalizing tagger with
  | nil => exact ⟨trivial, plain.1⟩
  | cons first sentences ih => exact ⟨⟨plain.1, (ih plain.2).1⟩, (ih plain.2).2⟩

/-- A call fails exactly when an entity that the tagger keeps, of its sentence or of a sentence
before it, begins behind the end of the sentence. -/
theorem convertSentence_eq_none_iff (sentences : List (List Char)) (sentence : List Char)
    (plain : NoPeriodTaken [] (sentences ++ [sentence])) :
    (convertSentence (em [] sentences) sentence).2 = none ↔
      ∃ e ∈ known [] (sentences ++ [sentence]), sentence.length < e.firstCharIndex := by
  obtain ⟨before, here⟩ := plain.of_append
  obtain ⟨same, sound⟩ := em_eq_known EntityTagger.Sound.nil before
  rw [same, known_append]
  exact (convertSentence_iff sound here).2

/-- After an emoticon that ends a sentence, a shorter sentence is not parsed. -/
theorem convertSentence_hello : (convertSentence (em [] ["Hi there you :-)".toList])
    "No (ok) yet".toList).2 = none := by
  refine (convertSentence_eq_none_iff ["Hi there you :-)".toList] "No (ok) yet".toList
    (by decide +kernel)).mpr ?_
  decide +kernel

end RelexNLPProcessor

end ThinkingUnderstanding
