import Mathlib.Data.List.Range
import ThinkingUnderstanding.Math.ApartInsertion

/-!
# The entities of a sentence

Before a sentence is parsed, its emoticons and brackets are found. An `EntityTagger` keeps the
entities in the order of the sentence, and drops one that overlaps an entity that is there.

An entity is never empty, which is a field of the structure.

## Main definitions

* `EntityInfo` — an entity with the sentence it is from
* `EntityTagger.addEntity` — the source's insertion
* `EntityTaggerBasic.tagEntities` — the emoticons, and then the brackets

## Main results

* `EntityTaggerBasic.apart_tagEntities` — the entities stay apart
* `EntityTaggerBasic.covered_tagEntities` — every bracket of the sentence is in one of them
-/

namespace ThinkingUnderstanding

/-- `EntityInfo`. -/
structure EntityInfo where
  originalSentence : List Char
  firstCharIndex : ℕ
  lastCharIndex : ℕ
  /-- The tagger finds no empty entities. -/
  proper : firstCharIndex < lastCharIndex
  type : String := "ENTITY"
  /-- The attribute `ID_PREFIX`. -/
  idPrefix : Option String := none
deriving DecidableEq

namespace EntityInfo

/-- `String.substring(beginIndex, endIndex)`, where it raises no exception. -/
def slice (text : List Char) (beginIndex endIndex : ℕ) : List Char :=
  (text.drop beginIndex).take (endIndex - beginIndex)

/-- `EntityInfo.getOriginalString`. -/
def getOriginalString (e : EntityInfo) : List Char :=
  slice e.originalSentence e.firstCharIndex e.lastCharIndex

/-- `EntityInfo.defaultPrefixes`. -/
def defaultPrefixes : List (String × String) :=
  [("GENERIC", "entityID"), ("DATE", "dateID"), ("EMOTICON", "emoticonID"),
   ("LOCATION", "locationID"), ("MONEY", "moneyID"), ("ORGANIZATION", "organizationID"),
   ("PERSON", "personID")]

/-- `EntityInfo.getPunctuationPrefix`, nothing when it raises an exception. -/
def getPunctuationPrefix (e : EntityInfo) : Option String :=
  e.originalSentence[e.firstCharIndex]?.map fun c =>
    if c = '(' then "lparenID"
    else if c = ')' then "rparenID"
    else if c = '[' then "lbracketID"
    else if c = ']' then "rbracketID"
    else "punctuationID"

/-- `EntityInfo.idStringPrefix`, nothing when it raises an exception. -/
def idStringPrefix (e : EntityInfo) : Option String :=
  match e.idPrefix with
  | some given => some given
  | none =>
      if e.type = "PUNCTUATION" then e.getPunctuationPrefix
      else some ((defaultPrefixes.lookup e.type).getD "entityID")

/-- `EntityInfo.setLastCharIndex(getLastCharIndex() + 1)`. -/
def extend (e : EntityInfo) : EntityInfo :=
  { e with lastCharIndex := e.lastCharIndex + 1, proper := Nat.lt_succ_of_lt e.proper }

end EntityInfo

/-- The entities of an `EntityTagger`. -/
abbrev EntityTagger := List EntityInfo

/-- `EntityTagger.addEntity`. -/
def EntityTagger.addEntity (orderedEntityInfos : EntityTagger) (ei : EntityInfo) : EntityTagger :=
  Math.insertApart EntityInfo.firstCharIndex EntityInfo.lastCharIndex ei 0 orderedEntityInfos

namespace EntityTaggerBasic

/-- `EntityTaggerBasic.emolist`. -/
def emolist : List String :=
  [":-)", ":-(", ":)", ":(", ":'-)", ":')", ":D", ":-D", ":-O", ":-S", ":-$", ":-*", ":[", ":'[",
   ":'\\", ":-B", ":-#", ":-|", ":-&", ":-X", ":-K", ":]", ":-@", ":@", ":O]", ":d", "|-O", "%-(",
   "=)", "=O", ";)", ";-)", ";]", ";O]", ";O", ";D", "B-)", " T.T ", "`:-)", ":P", "O:-)", "><",
   ">_<", "<_<", ">_>", " Oo ", ">:D", " e.e ", "-.-*", "~.^", "(-_-)", "(-.-)", "-.-'", " E.E ",
   "-.O", "*o*", "=^.^=", " 8)", " 8D ", ">O", "(:-D", "c^:3", "~:>", "x-(", ";:^)B>", " O.O ",
   " o.o ", " O.o ", " o.O ", " 8| ", ">8V-()<", " =3 ", "-:3", " <3 ", "<><", "<@:)", ":3="]

/-- `String.indexOf(pattern, fromIndex)`, nothing when the pattern does not occur. -/
def indexOf (text pattern : List Char) (fromIndex : ℕ) : Option ℕ :=
  (List.range' fromIndex (text.length + 1 - fromIndex)).find? fun i =>
    pattern.isPrefixOf (text.drop i)

/-- The values of `start` in a loop that searches from `fromIndex` on, and goes on `step` characters
behind each match. Every round begins further to the right, so that as many rounds as the text has
characters are enough. -/
def starts (text pattern : List Char) (step : ℕ) : ℕ → ℕ → List ℕ
  | 0, _ => []
  | rounds + 1, fromIndex =>
      match indexOf text pattern fromIndex with
      | none => []
      | some start => start :: starts text pattern step rounds (start + step)

/-- The entity `ei` for a match of a pattern that is not empty. -/
def entity (sentence pattern : List Char) (type : String) (nonempty : 0 < pattern.length)
    (start : ℕ) : EntityInfo where
  originalSentence := sentence
  firstCharIndex := start
  lastCharIndex := start + pattern.length
  proper := Nat.lt_add_of_pos_right nonempty
  type

/-- The entities of one pattern, in the order in which they are found. -/
def found (sentence pattern : List Char) (type : String) : List EntityInfo :=
  if nonempty : 0 < pattern.length then
    (starts sentence pattern pattern.length (sentence.length + 1) 0).map
      (entity sentence pattern type nonempty)
  else []

/-- `EntityTaggerBasic.identifyEmoticons`. -/
def identifyEmoticons (tagger : EntityTagger) (sentence : List Char) : EntityTagger :=
  emolist.foldl (fun tagger emo =>
    (found sentence emo.toList "EMOTICON").foldl EntityTagger.addEntity tagger) tagger

/-- `EntityTaggerBasic.escapePunct`. -/
def escapePunct (tagger : EntityTagger) (sentence : List Char) (punct : Char) : EntityTagger :=
  (found sentence [punct] "PUNCTUATION").foldl EntityTagger.addEntity tagger

/-- `EntityTaggerBasic.escapeParens`. -/
def escapeParens (tagger : EntityTagger) (sentence : List Char) : EntityTagger :=
  ['(', ')', '[', ']'].foldl (fun tagger punct => escapePunct tagger sentence punct) tagger

/-- `EntityTaggerBasic.tagEntities`. -/
def tagEntities (tagger : EntityTagger) (sentence : List Char) : EntityTagger :=
  escapeParens (identifyEmoticons tagger sentence) sentence

/-! ### What is found -/

variable {text pattern sentence : List Char} {fromIndex i : ℕ} {c : Char}

/-- The first match from an index on. -/
theorem indexOf_eq_some (found : indexOf text pattern fromIndex = some i) :
    fromIndex ≤ i ∧ pattern <+: text.drop i ∧
      ∀ j, fromIndex ≤ j → pattern <+: text.drop j → i ≤ j := by
  rw [indexOf, List.find?_range'_eq_some] at found
  obtain ⟨here, within, first⟩ := found
  refine ⟨(List.mem_range'_1.mp within).1, List.isPrefixOf_iff_prefix.mp here,
    fun j later same => ?_⟩
  by_contra before
  have other := first j later (not_le.mp before)
  rw [List.isPrefixOf_iff_prefix.mpr same] at other
  exact absurd other (by decide)

theorem indexOf_eq_none (none_ : indexOf text pattern fromIndex = none) (later : fromIndex ≤ i)
    (inside : i ≤ text.length) : ¬ pattern <+: text.drop i := by
  intro same
  rw [indexOf, List.find?_eq_none] at none_
  have member : i ∈ List.range' fromIndex (text.length + 1 - fromIndex) := by
    rw [List.mem_range'_1]
    omega
  exact none_ i member (List.isPrefixOf_iff_prefix.mpr same)

/-- The pattern occurs at every start. -/
theorem prefix_of_mem_starts {step rounds : ℕ}
    (member : i ∈ starts text pattern step rounds fromIndex) : pattern <+: text.drop i := by
  induction rounds generalizing fromIndex with
  | zero => exact absurd member List.not_mem_nil
  | succ rounds ih =>
    rw [starts] at member
    split at member
    case h_1 => exact absurd member List.not_mem_nil
    case h_2 start found =>
      rcases List.mem_cons.mp member with rfl | member
      · exact (indexOf_eq_some found).2.1
      · exact ih member

theorem prefix_singleton_iff : [c] <+: text.drop i ↔ text[i]? = some c := by
  rw [← List.head?_drop]
  cases text.drop i with
  | nil => simp
  | cons a rest => simp [eq_comm]

/-- A search for one character finds all places where it stands. -/
theorem mem_starts {rounds : ℕ} (here : text[i]? = some c) (later : fromIndex ≤ i)
    (enough : i < fromIndex + rounds) : i ∈ starts text [c] 1 rounds fromIndex := by
  induction rounds generalizing fromIndex with
  | zero => omega
  | succ rounds ih =>
    have inside : i < text.length := (List.getElem?_eq_some_iff.mp here).1
    rw [starts]
    split
    case h_1 none_ =>
      exact absurd (prefix_singleton_iff.mpr here) (indexOf_eq_none none_ later inside.le)
    case h_2 start found =>
      obtain ⟨begins, -, first⟩ := indexOf_eq_some found
      rcases (first i later (prefix_singleton_iff.mpr here)).eq_or_lt with rfl | before
      · exact List.mem_cons_self
      · exact List.mem_cons_of_mem _ (ih before (by omega))

/-- What is found in a sentence, in the order in which it is added. -/
def candidates (sentence : List Char) : List EntityInfo :=
  (emolist.flatMap fun emo => found sentence emo.toList "EMOTICON") ++
    ['(', ')', '[', ']'].flatMap fun punct => found sentence [punct] "PUNCTUATION"

theorem tagEntities_eq (tagger : EntityTagger) (sentence : List Char) :
    tagEntities tagger sentence = (candidates sentence).foldl EntityTagger.addEntity tagger := by
  rw [candidates, List.foldl_append, List.foldl_flatMap, List.foldl_flatMap]
  rfl

end EntityTaggerBasic

/-- The prefixes of the ids of emoticons and brackets. -/
def taggedPrefixes : List String :=
  ["emoticonID", "lparenID", "rparenID", "lbracketID", "rbracketID"]

/-- An emoticon or a bracket of the sentence. -/
structure EntityInfo.FoundIn (sentence : List Char) (e : EntityInfo) : Prop where
  original : e.originalSentence = sentence
  within : e.lastCharIndex ≤ sentence.length
  start : sentence[e.firstCharIndex]? ≠ some '.'
  named : ∃ text ∈ taggedPrefixes, e.idStringPrefix = some text

namespace EntityTaggerBasic

variable {sentence : List Char} {e : EntityInfo} {tagger : EntityTagger}

theorem foundIn_of_mem_found {pattern : List Char} {type : String} {c : Char}
    (head : pattern.head? = some c) (noPeriod : c ≠ '.')
    (named : ∀ e : EntityInfo, e.idPrefix = none → e.type = type → e.originalSentence = sentence →
      sentence[e.firstCharIndex]? = some c → ∃ text ∈ taggedPrefixes, e.idStringPrefix = some text)
    (member : e ∈ found sentence pattern type) : e.FoundIn sentence := by
  rw [found] at member
  split_ifs at member with nonempty
  · obtain ⟨start, loop, rfl⟩ := List.mem_map.mp member
    have occurs := prefix_of_mem_starts loop
    have here : sentence[start]? = some c := by
      obtain ⟨rest, rfl⟩ := List.head?_eq_some_iff.mp head
      obtain ⟨behind, same⟩ := occurs
      rw [← List.head?_drop, ← same]
      rfl
    refine ⟨rfl, ?_, ?_, named _ rfl rfl rfl here⟩
    · have long := occurs.length_le
      rw [List.length_drop] at long
      change start + pattern.length ≤ sentence.length
      omega
    · change sentence[start]? ≠ some '.'
      rw [here]
      exact fun same => noPeriod (Option.some.inj same)
  · exact absurd member List.not_mem_nil

theorem foundIn_of_mem_candidates (member : e ∈ candidates sentence) : e.FoundIn sentence := by
  rcases List.mem_append.mp member with emoticon | bracket
  · obtain ⟨emo, listed, member⟩ := List.mem_flatMap.mp emoticon
    have heads : ∀ emo ∈ emolist, ∃ c, emo.toList.head? = some c ∧ c ≠ '.' := by
      intro emo listed
      have all : ∀ emo ∈ emolist, (emo.toList.head?.any (· ≠ '.')) = true := by decide +kernel
      obtain ⟨c, head, other⟩ := (Option.any_eq_true _ _).mp (all emo listed)
      exact ⟨c, head, of_decide_eq_true other⟩
    obtain ⟨c, head, noPeriod⟩ := heads emo listed
    refine foundIn_of_mem_found head noPeriod (fun e plain type _ _ => ?_) member
    refine ⟨"emoticonID", List.mem_cons_self, ?_⟩
    rw [EntityInfo.idStringPrefix, plain, type]
    exact if_neg (by decide)
  · obtain ⟨punct, listed, member⟩ := List.mem_flatMap.mp bracket
    have noPeriod : punct ≠ '.' := by
      rintro rfl
      exact absurd listed (by decide)
    refine foundIn_of_mem_found rfl noPeriod (fun e plain type original here => ?_) member
    rw [EntityInfo.idStringPrefix, plain, type, EntityInfo.getPunctuationPrefix, original, here]
    have all : (['(', ')', '[', ']'].all fun c => taggedPrefixes.contains
        (if c = '(' then "lparenID" else if c = ')' then "rparenID"
          else if c = '[' then "lbracketID" else if c = ']' then "rbracketID"
          else "punctuationID")) = true := by
      decide +kernel
    have known := List.contains_iff_mem.mp (List.all_eq_true.mp all punct listed)
    exact ⟨_, known, rfl⟩

/-- The entities stay apart. -/
theorem apart_tagEntities (apart : Math.Apart EntityInfo.firstCharIndex EntityInfo.lastCharIndex 0
    tagger) : Math.Apart EntityInfo.firstCharIndex EntityInfo.lastCharIndex 0
      (tagEntities tagger sentence) := by
  rw [tagEntities_eq]
  exact Math.apart_foldl_insertApart apart (fun _ _ => Nat.zero_le _) fun e _ => e.proper

/-- What has been tagged stays, and what is new is found in the sentence. -/
theorem mem_tagEntities (apart : Math.Apart EntityInfo.firstCharIndex EntityInfo.lastCharIndex 0
    tagger) : (∀ e ∈ tagger, e ∈ tagEntities tagger sentence) ∧
      ∀ e ∈ tagEntities tagger sentence, e ∈ tagger ∨ e.FoundIn sentence := by
  rw [tagEntities_eq]
  obtain ⟨stay, new⟩ := Math.mem_foldl_insertApart apart (fun _ _ => Nat.zero_le _)
    fun e (_ : e ∈ candidates sentence) => e.proper
  exact ⟨stay, fun e member => (new e member).imp_right foundIn_of_mem_candidates⟩

/-- Every bracket of the sentence is in an entity. -/
theorem covered_tagEntities (apart : Math.Apart EntityInfo.firstCharIndex EntityInfo.lastCharIndex 0
    tagger) {c : Char} {i : ℕ} (bracket : c ∈ ['(', ')', '[', ']']) (here : sentence[i]? = some c) :
    ∃ e ∈ tagEntities tagger sentence, e.firstCharIndex ≤ i ∧ i < e.lastCharIndex := by
  have inside : i < sentence.length := (List.getElem?_eq_some_iff.mp here).1
  have offered : entity sentence [c] "PUNCTUATION" Nat.one_pos i ∈ candidates sentence := by
    refine List.mem_append_right _ (List.mem_flatMap.mpr ⟨c, bracket, ?_⟩)
    exact List.mem_map_of_mem (mem_starts here (Nat.zero_le i) (by omega))
  rw [tagEntities_eq]
  obtain ⟨e, member, before, behind⟩ := Math.covered_foldl_insertApart apart
    (fun _ _ => Nat.zero_le _) (fun e _ => e.proper) _ offered
  exact ⟨e, member, Nat.lt_succ_iff.mp behind, before⟩

end EntityTaggerBasic

end ThinkingUnderstanding
