import Mathlib.Data.List.DropRight
import ThinkingUnderstanding.Parsing.PhraseContent

/-!
# Names in camel case

`Concept.prepareName` splits a name at the blanks and reduces the words from the last one on,
with a capital letter for what is behind a word. `String.split` keeps an empty word before the
first blank and between two blanks, and leaves out those at the end. A blank at the beginning of
a name therefore gives the first word a capital, too, and behind an empty word the same letter is
capitalised again. Of a name that consists of blanks there is nothing left to reduce.

What `Character.toUpperCase` does is a parameter.

## Main definitions

* `TextCase.CapitalizesBy` — letters are capitalised one by one
* `Concept.words` — the words between the blanks, empty ones too
* `Concept.capitalized`, `Concept.camelCase` — the name that is to be made of them

## Main results

* `prepareName_camelCase` — what is made of a name that is not blank
-/

namespace ThinkingUnderstanding

/-- The first letter of a text is capitalised by `Character.toUpperCase`, which leaves upper case
as it is, and gives a blank only for a blank. -/
structure TextCase.CapitalizesBy (textCase : TextCase) (toUpperCase : Char → Char) : Prop where
  capitalize_singleton : ∀ c,
    textCase.capitalize (String.singleton c) = String.singleton (toUpperCase c)
  toUpperCase_toUpperCase : ∀ c, toUpperCase (toUpperCase c) = toUpperCase c
  eq_blank_of_toUpperCase : ∀ c, toUpperCase c = ' ' → c = ' '

theorem capitalizesBy_ascii : TextCase.ascii.CapitalizesBy Char.toUpper where
  capitalize_singleton c := by simp [TextCase.ascii]
  toUpperCase_toUpperCase := Char.toUpper_toUpper_eq_toUpper
  eq_blank_of_toUpperCase c blank := by
    -- a letter in upper case is no blank
    have other : c.isAlpha = false := by
      rw [← Char.isUpper_toUpper_eq_isAlpha, blank]
      rfl
    have lower : c.isLower = false := (Bool.or_eq_false_iff.mp other).2
    rwa [Char.toUpper_eq_of_not_isLower (Bool.eq_false_iff.mp lower)] at blank

namespace Concept

/-- The words between the blanks of a text, empty ones too. -/
def words (text : String) : List String := (text.toList.splitOn ' ').map String.ofList

variable (toUpperCase : Char → Char)

/-- A word with a capital as its first letter. -/
def capitalized (word : String) : String := String.ofList (word.toList.modifyHead toUpperCase)

/-- The first word, and every other one behind it with a capital. -/
def camelCase : List String → String
  | [] => ""
  | first :: later => first ++ String.join (later.map (capitalized toUpperCase))

variable {toUpperCase} {textCase : TextCase} {name word text : String} {parts : List String}

/-! ### The reduction -/

/-- What is behind an empty word is capitalised, and behind another one it is kept. -/
theorem capitalized_append (upper : textCase.CapitalizesBy toUpperCase) (word text : String) :
    capitalized toUpperCase (word ++ capitalized toUpperCase text) =
      capitalized toUpperCase word ++ capitalized toUpperCase text := by
  rw [← String.toList_inj]
  simp only [capitalized, String.toList_append, String.toList_ofList]
  cases word.toList with
  | cons c rest => rfl
  | nil =>
    cases text.toList with
    | nil => rfl
    | cons c rest =>
      simp only [List.nil_append, List.modifyHead_cons, List.modifyHead_nil,
        upper.toUpperCase_toUpperCase]

/-- One step of the reduction puts the next word before what is made so far. -/
theorem step_eq (upper : textCase.CapitalizesBy toUpperCase) (element accumulator : String) :
    (if element.isEmpty then accumulator
      else accumulator ++ textCase.capitalize (String.ofList (element.toList.take 1)) ++
        String.ofList (element.toList.drop 1)) =
      accumulator ++ capitalized toUpperCase element := by
  obtain ⟨letters, rfl⟩ : ∃ letters, element = String.ofList letters :=
    ⟨_, String.ofList_toList.symm⟩
  cases letters with
  | nil => simp [capitalized]
  | cons c rest =>
    have some : (String.ofList (c :: rest)).isEmpty = false := by simp
    have first : String.ofList [c] = String.singleton c := rfl
    rw [some, if_neg Bool.false_ne_true, String.toList_ofList, List.take_one, List.head?_cons,
      Option.toList_some, first, upper.capitalize_singleton, List.drop_one, List.tail_cons,
      ← String.toList_inj]
    simp [capitalized]

/-- With a capital, the name begins with the first word that is not empty. -/
theorem capitalized_camelCase (upper : textCase.CapitalizesBy toUpperCase) (parts : List String) :
    capitalized toUpperCase (camelCase toUpperCase parts) =
      String.join (parts.map (capitalized toUpperCase)) := by
  induction parts with
  | nil => rfl
  | cons first later ih =>
    rw [camelCase, ← ih, capitalized_append upper, List.map_cons, String.join_cons, ih]

/-- The reduction makes the name, by induction on the words before the last one. -/
theorem foldr_eq_camelCase (upper : textCase.CapitalizesBy toUpperCase) (earlier : List String)
    (last : String) :
    earlier.foldr (fun word made => word ++ capitalized toUpperCase made) last =
      camelCase toUpperCase (earlier ++ [last]) := by
  induction earlier with
  | nil => rw [List.foldr_nil, List.nil_append, camelCase, List.map_nil, String.join_nil,
      String.append_empty]
  | cons word earlier ih =>
    rw [List.foldr_cons, ih, capitalized_camelCase upper, List.cons_append, camelCase]

/-- Empty words at the end make no difference. -/
theorem camelCase_append_of_empty {ends : List String} (some : parts ≠ [])
    (empty : ∀ word ∈ ends, word = "") :
    camelCase toUpperCase (parts ++ ends) = camelCase toUpperCase parts := by
  have none : String.join (ends.map (capitalized toUpperCase)) = "" := by
    induction ends with
    | nil => rfl
    | cons word ends ih =>
      rw [List.map_cons, String.join_cons, empty word List.mem_cons_self,
        ih fun word member => empty word (List.mem_cons_of_mem _ member)]
      rfl
  cases parts with
  | nil => exact absurd rfl some
  | cons first later =>
    rw [List.cons_append, camelCase, List.map_append, String.join_append, none,
      String.append_empty, camelCase]

/-! ### The words of a name -/

/-- The pieces of a list contain all of it but the separators. -/
theorem flatten_splitOn {α : Type*} [DecidableEq α] (separator : α) (l : List α) :
    (l.splitOn separator).flatten = l.filter (· ≠ separator) := by
  induction l with
  | nil => rfl
  | cons a l ih =>
    rw [List.splitOn_cons_eq_if_modifyHead]
    split_ifs with same
    · rw [List.flatten_cons, List.nil_append, ih, List.filter_cons_of_neg]
      simpa using same
    · rw [List.filter_cons_of_pos (by simpa using same), ← ih]
      cases pieces : l.splitOn separator with
      | nil => exact absurd pieces (List.splitOn_ne_nil separator l)
      | cons piece rest => rfl

/-- Without capitals, the name is the text without its blanks. -/
theorem camelCase_id_words (text : String) :
    camelCase id (words text) = String.ofList (text.toList.filter (· ≠ ' ')) := by
  have same : ∀ word, capitalized id word = word := fun word => by
    rw [capitalized, List.modifyHead_id, id, String.ofList_toList]
  rw [← String.toList_inj, String.toList_ofList, ← flatten_splitOn, words]
  cases text.toList.splitOn ' ' with
  | nil => rfl
  | cons first later =>
    simp [camelCase, same, Function.comp_def, List.flatMap_def]

theorem blank_notMem_of_mem_words (member : word ∈ words text) : ' ' ∉ word.toList := by
  intro blank
  obtain ⟨letters, piece, rfl⟩ := List.mem_map.mp member
  rw [String.toList_ofList] at blank
  have inside : ' ' ∈ (text.toList.splitOn ' ').flatten := List.mem_flatten_of_mem piece blank
  rw [flatten_splitOn] at inside
  exact absurd (List.of_mem_filter inside) (by decide)

theorem blank_notMem_capitalized (upper : textCase.CapitalizesBy toUpperCase)
    (absent : ' ' ∉ word.toList) : ' ' ∉ (capitalized toUpperCase word).toList := by
  rw [capitalized, String.toList_ofList]
  cases letters : word.toList with
  | nil => exact List.not_mem_nil
  | cons c rest =>
    rw [letters] at absent
    intro blank
    rcases List.mem_cons.mp blank with first | later
    · exact absent (upper.eq_blank_of_toUpperCase c first.symm ▸ List.mem_cons_self)
    · exact absent (List.mem_cons_of_mem c later)

/-- The name contains no blank when the words contain none. -/
theorem blank_notMem_camelCase (upper : textCase.CapitalizesBy toUpperCase)
    (absent : ∀ word ∈ parts, ' ' ∉ word.toList) :
    ' ' ∉ (camelCase toUpperCase parts).toList := by
  cases parts with
  | nil => exact List.not_mem_nil
  | cons first later =>
    rw [camelCase, String.toList_append, String.toList_join, List.mem_append, List.mem_flatMap]
    rintro (blank | ⟨piece, member, blank⟩)
    · exact absent first List.mem_cons_self blank
    · obtain ⟨word, listed, rfl⟩ := List.mem_map.mp member
      exact blank_notMem_capitalized upper (absent word (List.mem_cons_of_mem _ listed)) blank

/-- The parts of a split text are its words up to the last one that is not empty. -/
theorem words_eq_split_append (blank : ' ' ∈ text.toList) :
    ∃ ends, words text = split text ' ' ++ ends ∧ ∀ word ∈ ends, word = "" := by
  refine ⟨((text.toList.splitOn ' ').rtakeWhile List.isEmpty).map String.ofList, ?_, ?_⟩
  · rw [split, if_pos blank]
    change _ = ((text.toList.splitOn ' ').rdropWhile List.isEmpty).map String.ofList ++ _
    rw [← List.map_append, List.rdropWhile_append_rtakeWhile, words]
  · intro word member
    obtain ⟨letters, piece, rfl⟩ := List.mem_map.mp member
    rw [List.isEmpty_iff.mp (List.mem_rtakeWhile_imp piece), String.ofList_nil]

/-- A text with another character than a blank has parts. -/
theorem split_ne_nil {c : Char} (blank : ' ' ∈ text.toList) (member : c ∈ text.toList)
    (other : c ≠ ' ') : split text ' ' ≠ [] := by
  intro none
  obtain ⟨ends, all, empty⟩ := words_eq_split_append blank
  rw [none, List.nil_append] at all
  have inside : c ∈ (text.toList.splitOn ' ').flatten := by
    rw [flatten_splitOn]
    exact List.mem_filter.mpr ⟨member, decide_eq_true other⟩
  obtain ⟨letters, piece, here⟩ := List.mem_flatten.mp inside
  have listed : String.ofList letters ∈ ends := all ▸ List.mem_map_of_mem piece
  rw [← String.toList_ofList (l := letters), empty _ listed] at here
  cases here

/-- What `prepareName` makes of the parts of a split name. -/
theorem prepareName_eq (upper : textCase.CapitalizesBy toUpperCase) (blank : ' ' ∈ name.toList)
    (some : split name ' ' ≠ []) :
    prepareName textCase name = Option.some (camelCase toUpperCase (split name ' ')) := by
  obtain ⟨earlier, last, parts⟩ := List.eq_nil_or_concat' (split name ' ') |>.resolve_left some
  rw [prepareName, if_pos blank, parts, List.reverse_append, List.reverse_singleton,
    List.singleton_append]
  simp only [step_eq upper]
  rw [List.foldl_reverse, foldr_eq_camelCase upper]

/-- A name that is empty or has another character than a blank is put into camel case: the
words without the blanks between them, with a capital for every one but the first, which is
the empty word when the name begins with a blank. -/
theorem prepareName_camelCase (upper : textCase.CapitalizesBy toUpperCase) (name : String)
    (letters : name = "" ∨ ∃ c ∈ name.toList, c ≠ ' ') :
    prepareName textCase name = some (camelCase toUpperCase (words name)) ∧
      ' ' ∉ (camelCase toUpperCase (words name)).toList := by
  refine ⟨?_, blank_notMem_camelCase upper fun word => blank_notMem_of_mem_words⟩
  by_cases blank : ' ' ∈ name.toList
  case neg =>
    rw [prepareName, if_neg blank, words, List.splitOn_eq_singleton blank]
    simp [camelCase]
  rcases letters with rfl | ⟨c, member, other⟩
  · cases blank
  · have some := split_ne_nil blank member other
    obtain ⟨ends, all, empty⟩ := words_eq_split_append blank
    rw [prepareName_eq upper blank some, all, camelCase_append_of_empty some empty]

/-- A name with a blank at its beginning, two between the words and one at its end. -/
theorem prepareName_ascii :
    prepareName TextCase.ascii " prepare  name " =
        some (camelCase Char.toUpper (words " prepare  name ")) ∧
      ' ' ∉ (camelCase Char.toUpper (words " prepare  name ")).toList :=
  prepareName_camelCase capitalizesBy_ascii " prepare  name " (Or.inr ⟨'p', by decide, by decide⟩)

example : camelCase Char.toUpper (words " prepare  name ") = "PrepareName" := by decide +kernel

/-- Behind a blank, the first word that is not empty gets a capital. -/
theorem prepareName_not_first_kept :
    ¬ ∀ name, prepareName TextCase.ascii name =
        some (camelCase Char.toUpper ((words name).filter (· ≠ ""))) ∧
      ' ' ∉ (camelCase Char.toUpper ((words name).filter (· ≠ ""))).toList := by
  intro kept
  have made : prepareName TextCase.ascii " prepare name" = some "PrepareName" := by
    decide +kernel
  have said : camelCase Char.toUpper ((words " prepare name").filter (· ≠ "")) =
      "prepareName" := by decide +kernel
  have same := (kept " prepare name").1
  rw [made, said] at same
  exact absurd (Option.some.inj same) (by decide)

end Concept

end ThinkingUnderstanding
