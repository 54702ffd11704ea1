import ThinkingUnderstanding.Parsing.PhraseContent

/-!
# What `findPhrase` finds

`AnnotatedPhrase.findPhrase` searches the tree of a phrase for a word, and finds something
exactly when a phrase of the tree is the word. What it returns from below the root is a direct
part of the root: `find` gives back the element that it has tested, and not what the test has
found. This is the phrase that was looked for only if the part is the word itself.

## Main definitions

* `PhraseContent.Within` — the phrases of a tree
* `PhraseContent.FindsItself` — the search finds the phrase that is the word, if there is one
* `PhraseContent.HasItAtHand` — the first part with the word in its tree is the word itself

## Main results

* `isFound_iff` — the search finds something exactly when a phrase of the tree is the word
* `findsItself_iff` — when it finds that phrase
-/

namespace ThinkingUnderstanding

namespace PhraseContent

/-- What holds of a phrase if it holds of its parts holds of all phrases. -/
theorem induction {P : PhraseContent → Prop}
    (step : ∀ text index phrases, (∀ ph ∈ phrases, P ph) → P (mk text index phrases)) :
    ∀ content, P content
  | mk text index phrases => step text index phrases fun ph _ => induction step ph

/-- The phrases of a tree: the root, and those of the trees of its parts. -/
inductive Within (p : PhraseContent) : PhraseContent → Prop
  | root : Within p p
  | part {text : String} {index : ℚ} {phrases : List PhraseContent} {ph : PhraseContent} :
      ph ∈ phrases → Within p ph → Within p (mk text index phrases)

variable (textCase : TextCase) (word : String)

/-- The own text of the phrase is the word, but for case. -/
def HasText (content : PhraseContent) : Prop :=
  textCase.toLowerCase content.text = textCase.toLowerCase word

/-- Some phrase of the tree has the text. -/
def Contains (content : PhraseContent) : Prop := ∃ p, Within p content ∧ p.HasText textCase word

/-- The search finds something exactly when a phrase of the tree has the text, and what it
finds is such a phrase. -/
structure FindsItself (content : PhraseContent) : Prop where
  isSome_iff : (content.findPhrase textCase word).isSome ↔ content.Contains textCase word
  correct : ∀ p, content.findPhrase textCase word = some p →
    Within p content ∧ p.HasText textCase word

/-- The phrase has the text, or the first of its parts with the text in its tree has it. -/
def HasItAtHand (content : PhraseContent) : Prop :=
  content.HasText textCase word ∨ ∀ before ph after, content.phrases = before ++ ph :: after →
    (∀ other ∈ before, ¬ other.Contains textCase word) → ph.Contains textCase word →
      ph.HasText textCase word

variable {textCase word} {content : PhraseContent}

theorem contains_mk_iff {text : String} {index : ℚ} {phrases : List PhraseContent} :
    (mk text index phrases).Contains textCase word ↔
      textCase.toLowerCase text = textCase.toLowerCase word ∨
        ∃ ph ∈ phrases, ph.Contains textCase word := by
  constructor
  · rintro ⟨p, within, hasText⟩
    cases within with
    | root => exact Or.inl hasText
    | part member below => exact Or.inr ⟨_, member, p, below, hasText⟩
  · rintro (own | ⟨ph, member, p, below, hasText⟩)
    · exact ⟨_, .root, own⟩
    · exact ⟨p, .part member below, hasText⟩

/-- Something is found exactly when a phrase of the tree has the text. -/
theorem isFound_iff (content : PhraseContent) :
    content.isFound textCase word ↔ content.Contains textCase word := by
  induction content using induction with
  | step text index phrases ih =>
    rw [isFound_mk_iff, contains_mk_iff]
    exact or_congr_right (exists_congr fun ph => and_congr_right fun member => ih ph member)

/-- The search among the parts returns the first one whose tree has the text. -/
theorem findIn_eq_some_iff {phrases : List PhraseContent} {ph : PhraseContent} :
    findIn textCase word phrases = some ph ↔ ∃ before after, phrases = before ++ ph :: after ∧
      (∀ other ∈ before, ¬ other.Contains textCase word) ∧ ph.Contains textCase word := by
  have found : ∀ phrases : List PhraseContent, findIn textCase word phrases =
      phrases.find? (isFound textCase word) := by
    intro phrases
    induction phrases with
    | nil => rfl
    | cons first rest ih =>
      rw [findIn, List.find?_cons, ih, isFound]
      cases (first.findPhrase textCase word).isSome <;> rfl
  rw [found, List.find?_eq_some_iff_append, isFound_iff, and_comm]
  simp only [Bool.not_eq_true', Bool.eq_false_iff, ne_eq, isFound_iff, ← exists_and_right,
    and_assoc]

theorem findPhrase_of_hasText (own : content.HasText textCase word) :
    content.findPhrase textCase word = some content := by
  obtain ⟨text, index, phrases⟩ := content
  rw [findPhrase]
  exact if_pos own

theorem findPhrase_of_not_hasText (other : ¬ content.HasText textCase word) :
    content.findPhrase textCase word = findIn textCase word content.phrases := by
  obtain ⟨text, index, phrases⟩ := content
  rw [findPhrase]
  exact if_neg other

/-- The search finds the phrase itself exactly when it has not to look for it any deeper than in
the parts of the root. -/
theorem findsItself_iff (textCase : TextCase) (word : String) (content : PhraseContent) :
    content.FindsItself textCase word ↔ content.HasItAtHand textCase word := by
  by_cases own : content.HasText textCase word
  · refine iff_of_true ⟨isFound_iff content, fun p found => ?_⟩ (Or.inl own)
    rw [findPhrase_of_hasText own] at found
    obtain rfl := Option.some.inj found
    exact ⟨.root, own⟩
  · have search := findPhrase_of_not_hasText own
    constructor
    · intro finds
      refine Or.inr fun before ph after split none contains => ?_
      have returned : content.findPhrase textCase word = some ph :=
        search.trans (findIn_eq_some_iff.mpr ⟨before, after, split, none, contains⟩)
      exact (finds.correct ph returned).2
    · intro atHand
      refine ⟨isFound_iff content, fun p found => ?_⟩
      obtain ⟨before, after, split, none, contains⟩ :=
        findIn_eq_some_iff.mp (search.symm.trans found)
      refine ⟨?_, atHand.resolve_left own before p after split none contains⟩
      obtain ⟨text, index, phrases⟩ := content
      have parts : phrases = before ++ p :: after := split
      have member : p ∈ phrases := parts ▸ List.mem_append_right _ List.mem_cons_self
      exact .part member .root

/-- The word is found two steps below the root, and its parent is returned. -/
theorem parent_found_instead : ¬ (mk "" 0 [mk "" 0 [mk "dog" 0 []]]).FindsItself .ascii "dog" := by
  have empty : ∀ phrases, ¬ (mk "" 0 phrases).HasText .ascii "dog" := by
    intro phrases
    change TextCase.ascii.toLowerCase "" ≠ TextCase.ascii.toLowerCase "dog"
    decide
  have returned : (mk "" 0 [mk "" 0 [mk "dog" 0 []]]).findPhrase .ascii "dog" =
      some (mk "" 0 [mk "dog" 0 []]) := by
    rw [findPhrase_of_not_hasText (empty _), findIn_eq_some_iff]
    refine ⟨[], [], rfl, List.forall_mem_nil _, _, .part (List.mem_singleton_self _) .root, ?_⟩
    exact (rfl : TextCase.ascii.toLowerCase "dog" = _)
  exact fun finds => empty _ (finds.correct _ returned).2

end PhraseContent

end ThinkingUnderstanding
