import ThinkingUnderstanding.Math.Replacement

/-!
# Reserved words in spell correction

`SpellCorrectorAfterTheDeadline.sendRequest` has a service check a sentence, takes the question
marks out of it, and applies the corrections one after another: the string of a correction is
replaced by the first suggestion, everywhere in the text so far. The string of a correction is not
replaced when it is a reserved word, but it may be a part of one.

What the service answers is a parameter.

## Main definitions

* `SpellCorrector.ifWordIsReserved`, `SpellCorrector.sendRequest` — the source's functions
* `ReservedKept` — the reserved words of a sentence are found in a text, in the same order
* `Uncut` — no correction that is applied has a match that cuts one of them

## Main results

* `reservedKept_uncut` — when the reserved words are kept
-/

namespace ThinkingUnderstanding.SpellCorrector

/-- `SpellCorrector.ifWordIsReserved`. -/
def ifWordIsReserved (word : String) : Bool := word == "CatiaV5" || word == "cnext5"

/-- An element `error` of the answer of the service. -/
structure Correction where
  string : String
  correctionType : String
  suggestions : List String

/-- What is loaded from `checkGrammar` or `checkDocument` for a sentence, unless there is an
exception. -/
abbrev Service := Bool → String → Option (List Correction)

/-- `String.replace`. -/
def replace (text target replacement : String) : String :=
  String.ofList (Math.replace target.toList replacement.toList text.toList)

/-- The body of the loop of `sendRequest`. -/
def applyCorrection (correctedSentence : String) (n : Correction) : String :=
  if ifWordIsReserved n.string then correctedSentence
  else
    match n.suggestions with
    | [] => correctedSentence
    | suggestion :: _ => replace correctedSentence n.string suggestion

/-- `SpellCorrectorAfterTheDeadline.sendRequest`. -/
def sendRequest (service : Service) (sentenceToCheck : String) (useGrammarOnly : Bool) : String :=
  match service useGrammarOnly sentenceToCheck with
  | none => sentenceToCheck
  | some correctionList =>
      correctionList.foldl applyCorrection (replace sentenceToCheck "?" "")

/-- `SpellCorrectorAfterTheDeadline.correctSentence`. -/
def correctSentence (service : Service) (inputSentence : String) : String :=
  sendRequest service inputSentence false

/-- The letters are those of a reserved word. -/
def isReserved (word : List Char) : Bool := ifWordIsReserved (String.ofList word)

/-- The reserved words that occur in a text, from left to right. -/
def reservedWords (text : String) : List (List Char) :=
  Math.occurrences isReserved text.toList

/-- Those that lie between the matches of the target. -/
def reservedBetween (target text : String) : List (List Char) :=
  (Math.pieces target.toList text.toList).flatMap (Math.occurrences isReserved)

/-- The reserved words of the sentence are found in the text, in the same order. -/
def ReservedKept (sentence text : String) : Prop :=
  (reservedWords sentence).Sublist (reservedWords text)

/-- At each correction that is applied, the reserved words of the sentence lie between the matches
of its string in the text so far. -/
def Uncut (sentence : String) : String → List Correction → Prop
  | _, [] => True
  | text, n :: rest =>
      (ifWordIsReserved n.string = false → n.suggestions ≠ [] →
        (reservedWords sentence).Sublist (reservedBetween n.string text)) ∧
      Uncut sentence (applyCorrection text n) rest

variable {sentence text : String} {corrections : List Correction}

theorem isReserved_iff {w : List Char} :
    isReserved w = true ↔ w = "CatiaV5".toList ∨ w = "cnext5".toList := by
  rw [isReserved, ifWordIsReserved, Bool.or_eq_true, beq_iff_eq, beq_iff_eq]
  constructor
  · rintro (same | same)
    · exact Or.inl (by rw [← same, String.toList_ofList])
    · exact Or.inr (by rw [← same, String.toList_ofList])
  · rintro (rfl | rfl)
    · exact Or.inl String.ofList_toList
    · exact Or.inr String.ofList_toList

/-- A reserved word is made of letters and a digit. -/
theorem not_mem_of_isReserved {a : Char} (other : a.isAlphanum = false) (w : List Char)
    (reserved : isReserved w = true) : w ≠ [] ∧ a ∉ w := by
  have letters : w ≠ [] ∧ w.all Char.isAlphanum = true := by
    rcases isReserved_iff.mp reserved with rfl | rfl
    · decide +kernel
    · decide +kernel
  refine ⟨letters.1, fun member => ?_⟩
  rw [List.all_eq_true.mp letters.2 a member] at other
  cases other

theorem reservedWords_replace_eq (text target replacement : String) :
    reservedWords (replace text target replacement) = Math.occurrences isReserved
      (replacement.toList.intercalate (Math.pieces target.toList text.toList)) := by
  rw [reservedWords, replace, String.toList_ofList]
  rfl

/-- What lies between the matches is kept by every replacement. -/
theorem reservedBetween_sublist (target text replacement : String) :
    (reservedBetween target text).Sublist (reservedWords (replace text target replacement)) := by
  rw [reservedWords_replace_eq]
  exact Math.flatMap_occurrences_sublist _ _ _

/-- What lies between the matches is in the text. -/
theorem reservedBetween_sublist_reservedWords (target text : String) :
    (reservedBetween target text).Sublist (reservedWords text) := by
  have all := Math.flatMap_occurrences_sublist isReserved target.toList
    (Math.pieces target.toList text.toList)
  rwa [Math.intercalate_pieces] at all

/-- A blank keeps nothing else. -/
theorem reservedWords_replace_blank (text target : String) :
    reservedWords (replace text target " ") = reservedBetween target text := by
  rw [reservedWords_replace_eq]
  exact Math.occurrences_intercalate_singleton (not_mem_of_isReserved (by decide)) _

/-- A question mark does not cut a reserved word. -/
theorem reservedBetween_questionMark (text : String) :
    reservedBetween "?" text = reservedWords text := by
  have all := Math.occurrences_intercalate_singleton
    (not_mem_of_isReserved (a := '?') (by decide)) (Math.pieces "?".toList text.toList)
  exact all.symm.trans (congrArg (Math.occurrences isReserved) (Math.intercalate_pieces _ _))

theorem reservedKept_questionMarks (sentence : String) :
    ReservedKept sentence (replace sentence "?" "") := by
  rw [ReservedKept, ← reservedBetween_questionMark sentence]
  exact reservedBetween_sublist "?" sentence ""

/-- One correction keeps the reserved words when no match of its string cuts them. -/
theorem ReservedKept.applyCorrection {n : Correction} (kept : ReservedKept sentence text)
    (uncut : ifWordIsReserved n.string = false → n.suggestions ≠ [] →
      (reservedWords sentence).Sublist (reservedBetween n.string text)) :
    ReservedKept sentence (applyCorrection text n) := by
  unfold SpellCorrector.applyCorrection
  split_ifs with reserved
  · exact kept
  · split
    · exact kept
    · rename_i suggestion _ suggestions
      have suggested : n.suggestions ≠ [] := by
        rw [suggestions]
        exact List.cons_ne_nil _ _
      exact (uncut (Bool.eq_false_iff.mpr reserved) suggested).trans
        (reservedBetween_sublist n.string text suggestion)

/-- So do all corrections. -/
theorem ReservedKept.foldl (kept : ReservedKept sentence text)
    (uncut : Uncut sentence text corrections) :
    ReservedKept sentence (corrections.foldl SpellCorrector.applyCorrection text) := by
  induction corrections generalizing text with
  | nil => exact kept
  | cons n rest ih => exact ih (kept.applyCorrection uncut.1) uncut.2

/-- The correction with a blank as its suggestion. -/
def Correction.blank (n : Correction) : Correction := { n with suggestions := [" "] }

theorem applyCorrection_blank (text : String) (n : Correction) :
    applyCorrection text n.blank =
      if ifWordIsReserved n.string then text else replace text n.string " " :=
  rfl

/-- Blanks bring no reserved word into the text. -/
theorem foldl_blank_sublist (corrections : List Correction) (text : String) :
    (reservedWords ((corrections.map Correction.blank).foldl applyCorrection text)).Sublist
      (reservedWords text) := by
  induction corrections generalizing text with
  | nil => exact List.Sublist.refl _
  | cons n rest ih =>
    refine (ih _).trans ?_
    rw [applyCorrection_blank]
    split_ifs with reserved
    · exact List.Sublist.refl _
    · rw [reservedWords_replace_blank]
      exact reservedBetween_sublist_reservedWords n.string text

theorem map_string_blank (corrections : List Correction) :
    (corrections.map Correction.blank).map Correction.string =
      corrections.map Correction.string := by
  rw [List.map_map]
  rfl

/-- When the reserved words are kept for all suggestions, no correction cuts one. -/
theorem uncut_of_forall_reservedKept (kept : ∀ others : List Correction,
      others.map Correction.string = corrections.map Correction.string →
        ReservedKept sentence (others.foldl applyCorrection text)) :
    Uncut sentence text corrections := by
  induction corrections generalizing text with
  | nil => trivial
  | cons n rest ih =>
    refine ⟨fun free _ => ?_, ih fun others same => ?_⟩
    · -- with blanks from here on, what is cut does not come back
      have lost := kept ((n :: rest).map Correction.blank) (map_string_blank _)
      rw [List.map_cons, List.foldl_cons] at lost
      have less : (reservedWords sentence).Sublist _ := lost.trans (foldl_blank_sublist rest _)
      rwa [applyCorrection_blank, if_neg (Bool.eq_false_iff.mp free),
        reservedWords_replace_blank] at less
    · exact kept (n :: others) (by rw [List.map_cons, List.map_cons, same])

/-- The reserved words of a sentence are kept when no correction that is applied cuts one of them.
For the strings of the corrections this is exact: if the words are kept whatever is suggested, then
none is cut, whatever is suggested. -/
theorem reservedKept_uncut (sentence : String) (useGrammarOnly : Bool) :
    (∀ service : Service,
      (∀ corrections, service useGrammarOnly sentence = some corrections →
        Uncut sentence (replace sentence "?" "") corrections) →
      ReservedKept sentence (sendRequest service sentence useGrammarOnly)) ∧
    ∀ strings : List String,
      (∀ corrections : List Correction, corrections.map Correction.string = strings →
        ReservedKept sentence (sendRequest (fun _ _ => some corrections) sentence
          useGrammarOnly)) ↔
      ∀ corrections : List Correction, corrections.map Correction.string = strings →
        Uncut sentence (replace sentence "?" "") corrections := by
  have enough : ∀ service : Service,
      (∀ corrections, service useGrammarOnly sentence = some corrections →
        Uncut sentence (replace sentence "?" "") corrections) →
      ReservedKept sentence (sendRequest service sentence useGrammarOnly) := by
    intro service uncut
    unfold sendRequest
    split
    · -- without an answer the sentence is left as it is
      exact List.Sublist.refl _
    · rename_i corrections answered
      exact (reservedKept_questionMarks sentence).foldl (uncut corrections answered)
  refine ⟨enough, fun strings => ⟨?_, ?_⟩⟩
  · rintro kept corrections rfl
    exact uncut_of_forall_reservedKept kept
  · intro uncut corrections same
    refine enough _ ?_
    rintro _ ⟨⟩
    exact uncut corrections same

/-- A part of a reserved word is corrected. -/
def catty : List Correction := [⟨"Catia", "spelling", ["Cattle"]⟩]

/-- The word is lost. -/
theorem not_reservedKept_catia :
    ¬ ReservedKept "CatiaV5 crashes" (sendRequest (fun _ _ => some catty) "CatiaV5 crashes"
      false) := by
  unfold ReservedKept
  decide +kernel

/-- A word that stands beside a reserved one is corrected. -/
example : sendRequest (fun _ _ => some [⟨"crahes", "spelling", ["crashes"]⟩]) "CatiaV5 crahes?"
    false = "CatiaV5 crashes" := by
  decide +kernel

end ThinkingUnderstanding.SpellCorrector
