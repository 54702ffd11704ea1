import Mathlib

/-!
# Phrases and how they are found

An `AnnotatedPhrase` is a word, or is composed of other phrases. Its text and composition do
not change while a sentence is parsed; only the concepts it is connected with do, and these
are on the heap. A phrase is found by a word when its own text is that word, whatever the
case of the letters, or when a phrase it is composed of is found by the word.

What Java takes for the lower case of a text depends on Unicode tables. It is a parameter,
with the laws that are needed of it.

## Main definitions

* `TextCase` — the two conversions of case
* `PhraseContent` — the text and the composition of a phrase
* `PhraseContent.findPhrase`, `PhraseContent.phrase`
* `trim`, `split`, `prepareName` — operations on texts
-/

namespace ThinkingUnderstanding

/-- The conversions of letters between lower and upper case. -/
structure TextCase where
  /-- `String.toLowerCase`. -/
  toLowerCase : String → String
  /-- `String.capitalize`, on a text of one character. -/
  capitalize : String → String
  toLowerCase_toLowerCase : ∀ text, toLowerCase (toLowerCase text) = toLowerCase text
  /-- A blank is neither upper nor lower case. -/
  blank_mem_toLowerCase : ∀ text, ' ' ∈ (toLowerCase text).toList ↔ ' ' ∈ text.toList
  toLowerCase_of : toLowerCase "of" = "of"

theorem toLower_eq_blank_iff (c : Char) : c.toLower = ' ' ↔ c = ' ' := by
  constructor
  · intro blank
    -- a letter in lower case is no blank
    have other : c.isAlpha = false := by
      rw [← Char.isLower_toLower_eq_isAlpha, blank]
      rfl
    have upper : c.isUpper = false := (Bool.or_eq_false_iff.mp other).1
    rwa [Char.toLower_eq_of_not_isUpper (Bool.eq_false_iff.mp upper)] at blank
  · rintro rfl
    rfl

/-- The conversion that changes the letters from A to Z only. -/
def TextCase.ascii : TextCase where
  toLowerCase text := String.ofList (text.toList.map Char.toLower)
  capitalize text := String.ofList (text.toList.map Char.toUpper)
  toLowerCase_toLowerCase text := by
    rw [String.toList_ofList, List.map_map]
    congr 1
    apply List.map_congr_left
    intro c _
    exact Char.toLower_toLower_eq_toLower c
  blank_mem_toLowerCase text := by
    rw [String.toList_ofList, List.mem_map]
    constructor
    · rintro ⟨c, member, blank⟩
      exact (toLower_eq_blank_iff c).mp blank ▸ member
    · exact fun member => ⟨' ', member, rfl⟩
  toLowerCase_of := by decide

/-- `String.trim`: characters up to the blank are removed at both ends. -/
def trim (text : String) : String :=
  let strip := List.dropWhile fun c : Char => c ≤ ' '
  String.ofList (strip (strip text.toList).reverse).reverse

/-- `String.split(separator)`: empty texts at the end are left out. -/
def split (text : String) (separator : Char) : List String :=
  if separator ∈ text.toList then
    ((text.toList.splitOn separator).reverse.dropWhile List.isEmpty).reverse.map String.ofList
  else [text]

/-- The content of an `AnnotatedPhrase`. -/
inductive PhraseContent
  | mk (text : String) (sentenceIndex : ℚ) (phrases : List PhraseContent)

namespace PhraseContent

/-- `AnnotatedPhrase.text`. -/
def text : PhraseContent → String
  | mk text _ _ => text

/-- `AnnotatedPhrase.phrases`. -/
def phrases : PhraseContent → List PhraseContent
  | mk _ _ phrases => phrases

/-- `AnnotatedPhrase(word, index)`, and `AnnotatedPhrase(word)` with index zero. -/
def ofWord (word : String) (index : ℚ) : PhraseContent := mk word index []

/-- `AnnotatedPhrase(words, index)`. -/
def ofWords (words : List PhraseContent) (index : ℚ) : PhraseContent :=
  mk (words.foldl (fun a i => if a.isEmpty then i.text else a ++ " " ++ i.text) "") index words

variable (textCase : TextCase)

/-- `AnnotatedPhrase.phrase`, which is also its `toString`. -/
def phrase (content : PhraseContent) : String :=
  match content.phrases with
  | [] => content.text
  | phrases => " ".intercalate (phrases.map fun b => textCase.toLowerCase b.text)

mutual

/-- `AnnotatedPhrase.findPhrase`. -/
def findPhrase (word : String) : PhraseContent → Option PhraseContent
  | mk text index phrases =>
      if textCase.toLowerCase text = textCase.toLowerCase word then some (mk text index phrases)
      else findIn word phrases
termination_by structural content => content

/-- `phrases.find`, in `AnnotatedPhrase.findPhrase`. -/
def findIn (word : String) : List PhraseContent → Option PhraseContent
  | [] => none
  | ph :: rest => if (findPhrase word ph).isSome then some ph else findIn word rest
termination_by structural phrases => phrases

end

/-- The phrase is found by the word. -/
def isFound (word : String) (content : PhraseContent) : Bool :=
  (content.findPhrase textCase word).isSome

variable {textCase} {word : String} {a b c : PhraseContent} {index : ℚ}

theorem isSome_findIn_iff {phrases : List PhraseContent} :
    (findIn textCase word phrases).isSome ↔ ∃ ph ∈ phrases, ph.isFound textCase word := by
  induction phrases with
  | nil => simp [findIn]
  | cons ph rest ih =>
    rw [findIn, List.exists_mem_cons_iff, ← ih, isFound]
    split
    case isTrue found => simp [found]
    case isFalse missed => simp [missed]

/-- A phrase is found by its own text, or by what it is composed of. -/
theorem isFound_mk_iff {text : String} {phrases : List PhraseContent} :
    (mk text index phrases).isFound textCase word ↔
      textCase.toLowerCase text = textCase.toLowerCase word ∨
        ∃ ph ∈ phrases, ph.isFound textCase word := by
  rw [isFound, findPhrase, ← isSome_findIn_iff]
  split
  case isTrue same => simp [same]
  case isFalse other => simp [other]

theorem isFound_ofWords_iff {words : List PhraseContent} :
    (ofWords words index).isFound textCase word ↔
      textCase.toLowerCase (ofWords words index).text = textCase.toLowerCase word ∨
        ∃ ph ∈ words, ph.isFound textCase word := isFound_mk_iff

theorem isFound_ofWord_iff {text : String} :
    (ofWord text index).isFound textCase word ↔
      textCase.toLowerCase text = textCase.toLowerCase word := by
  rw [ofWord, isFound_mk_iff]
  simp

theorem text_ofWords_pair : (ofWords [a, b] index).text =
    if a.text.isEmpty then b.text else a.text ++ " " ++ b.text := rfl

theorem text_ofWords_triple : (ofWords [a, b, c] index).text =
    if (ofWords [a, b] index).text.isEmpty then c.text
    else (ofWords [a, b] index).text ++ " " ++ c.text := rfl

theorem text_ofWords_pair_cases : (ofWords [a, b] index).text = b.text ∨
    ' ' ∈ (ofWords [a, b] index).text.toList := by
  rw [text_ofWords_pair]
  split
  · exact Or.inl rfl
  · exact Or.inr (by simp)

/-- The texts of a compound are joined by blanks. -/
theorem blank_mem_text_ofWords (some : b.text ≠ "") :
    ' ' ∈ (ofWords [a, b, c] index).text.toList := by
  have joined : (ofWords [a, b] index).text ≠ "" := by
    rw [text_ofWords_pair]
    split <;> simp [some]
  rw [text_ofWords_triple, if_neg (mt String.isEmpty_iff.mp joined)]
  simp

end PhraseContent

/-- `Concept.prepareName`, nothing when it raises an exception. Reduction starts from the
last part of the name. -/
def Concept.prepareName (textCase : TextCase) (name : String) : Option String :=
  if ' ' ∈ name.toList then
    match (split name ' ').reverse with
    | [] => none
    | last :: rest => some (rest.foldl (fun element accumulator =>
        if element.isEmpty then accumulator
        else accumulator ++ textCase.capitalize (String.ofList (element.toList.take 1)) ++
          String.ofList (element.toList.drop 1)) last)
  else some name

end ThinkingUnderstanding
