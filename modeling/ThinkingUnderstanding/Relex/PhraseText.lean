import ThinkingUnderstanding.Relex.PhraseMarkup

/-!
# The texts of phrases

A phrase is a type and a list of elements, each of which is a word or a phrase again. It is written
in parentheses, with white space before each element. On such texts the searches of the markup find
the end of a word, of the white space, and of a phrase.

## Main definitions

* `PhraseList` — the elements of a phrase
* `PhraseList.text` — how they are written
* `PhraseList.Proper` — what the parser writes

## Main results

* `PhraseMarkup.strpbrk_eq`, `PhraseMarkup.strspn_eq` — the ends of a word and of white space
* `PhraseMarkup.closer_phrase` — the end of a phrase
-/

namespace ThinkingUnderstanding

/-- The elements of a phrase, each with the white space before it. -/
inductive PhraseList
  | nil
  | word (blank text : List Char) (next : PhraseList)
  | phrase (blank type : List Char) (elements next : PhraseList)

namespace PhraseList

/-- White space, then a word or a phrase, and so on. -/
def text : PhraseList → List Char
  | .nil => []
  | .word blank text next => blank ++ (text ++ next.text)
  | .phrase blank type elements next =>
      blank ++ ('(' :: (type ++ (elements.text ++ (')' :: next.text))))

/-- The text without the white space at its beginning. -/
def body : PhraseList → List Char
  | .nil => []
  | .word _ text next => text ++ next.text
  | .phrase _ type elements next => '(' :: (type ++ (elements.text ++ (')' :: next.text)))

/-- How many words there are. -/
def wordCount : PhraseList → ℕ
  | .nil => 0
  | .word _ _ next => next.wordCount + 1
  | .phrase _ _ elements next => elements.wordCount + next.wordCount

/-- Neither white space nor a parenthesis. -/
def Bare (text : List Char) : Prop := ∀ c ∈ text, c ∉ PhraseMarkup.blanks ∧ c ≠ '(' ∧ c ≠ ')'

/-- White space before an element. There is exactly one character before the first one. -/
structure Blank (first : Bool) (blank : List Char) : Prop where
  white : ∀ c ∈ blank, c ∈ PhraseMarkup.blanks
  length : if first then blank.length = 1 else blank ≠ []

/-- A list of elements that the parser writes. There is a first element. -/
def Proper : Bool → PhraseList → Prop
  | first, .nil => first = false
  | first, .word blank text next =>
      Blank first blank ∧ text ≠ [] ∧ Bare text ∧ next.Proper false
  | first, .phrase blank type elements next =>
      Blank first blank ∧ Bare type ∧ elements.Proper true ∧ next.Proper false

/-- A phrase in parentheses. -/
def phraseText (type : List Char) (elements : PhraseList) : List Char :=
  '(' :: (type ++ (elements.text ++ [')']))

theorem length_phraseText (type : List Char) (elements : PhraseList) :
    (phraseText type elements).length = type.length + elements.text.length + 2 := by
  simp [phraseText]
  omega

/-- The first element comes after one character. -/
theorem exists_text_of_proper {elements : PhraseList} (proper : elements.Proper true) :
    ∃ c ∈ PhraseMarkup.blanks, elements.text = c :: elements.body := by
  cases elements with
  | nil => cases proper
  | word blank text next =>
    obtain ⟨⟨white, length⟩, -⟩ := proper
    obtain ⟨c, rfl⟩ := List.length_eq_one_iff.mp length
    exact ⟨c, white c (List.mem_singleton.mpr rfl), rfl⟩
  | phrase blank type elements next =>
    obtain ⟨⟨white, length⟩, -⟩ := proper
    obtain ⟨c, rfl⟩ := List.length_eq_one_iff.mp length
    exact ⟨c, white c (List.mem_singleton.mpr rfl), rfl⟩

/-- A later element comes after white space. -/
theorem exists_blank_of_proper {elements : PhraseList} (proper : elements.Proper false) :
    ∃ blank, (∀ c ∈ blank, c ∈ PhraseMarkup.blanks) ∧ elements.text = blank ++ elements.body ∧
      (elements = .nil ∨ ∃ c rest, blank ≠ [] ∧ elements.body = c :: rest ∧
        c ∉ PhraseMarkup.blanks) := by
  cases elements with
  | nil => exact ⟨[], fun _ member => absurd member List.not_mem_nil, rfl, Or.inl rfl⟩
  | word blank text next =>
    obtain ⟨⟨white, full⟩, some_, bare, -⟩ := proper
    obtain ⟨c, rest, rfl⟩ := List.exists_cons_of_ne_nil some_
    exact ⟨blank, white, rfl, Or.inr ⟨c, rest ++ next.text, full, rfl,
      (bare c List.mem_cons_self).1⟩⟩
  | phrase blank type elements next =>
    obtain ⟨⟨white, full⟩, -⟩ := proper
    exact ⟨blank, white, rfl, Or.inr ⟨'(', _, full, rfl, by decide +kernel⟩⟩

end PhraseList

namespace PhraseMarkup

open PhraseList

variable {str text rest before behind : List Char} {idx k : ℕ} {c : Char} {accept : List Char}

/-! ### The end of a word -/

theorem indexOf_of_notMem (split : str.drop idx = text ++ rest) (absent : c ∉ text) :
    indexOf str c idx = none ∨ ∃ wh, indexOf str c idx = some wh ∧ idx + text.length ≤ wh := by
  rw [indexOf, split]
  cases found : (text ++ rest).idxOf? c with
  | none => exact Or.inl rfl
  | some i =>
    refine Or.inr ⟨idx + i, rfl, ?_⟩
    by_contra early
    have below : i < text.length := by omega
    obtain ⟨bound, same, -⟩ := List.idxOf?_eq_some_iff.mp found
    rw [List.getElem_append_left below] at same
    exact absent (same ▸ List.getElem_mem below)

theorem indexOf_eq (split : str.drop idx = text ++ c :: rest) (absent : c ∉ text) :
    indexOf str c idx = some (idx + text.length) := by
  have found : (text ++ c :: rest).idxOf? c = some text.length := by
    rw [List.idxOf?_eq_some_iff]
    refine ⟨by simp, by simp, fun j below => ?_⟩
    rw [List.getElem_append_left below]
    exact fun same => absent (same ▸ List.getElem_mem below)
  rw [indexOf, split, found]
  rfl

/-- The least of the positions. -/
theorem strpbrk_bounds (k : ℕ) (positive : 0 < k) (accept : List Char)
    (later : ∀ c ∈ accept, indexOf str c idx = none ∨
      ∃ wh, indexOf str c idx = some wh ∧ k ≤ wh) (we : ℕ) (start : k ≤ we) :
    let least := accept.foldl (fun we c =>
      match indexOf str c idx with
      | none => we
      | some wh => if 0 < wh ∧ wh < we then wh else we) we
    k ≤ least ∧ least ≤ we ∧ ((∃ c ∈ accept, indexOf str c idx = some k) → least = k) := by
  induction accept generalizing we with
  | nil => exact ⟨start, le_rfl, fun ⟨_, member, _⟩ => absurd member List.not_mem_nil⟩
  | cons c accept ih =>
    rw [List.forall_mem_cons] at later
    rw [List.foldl_cons]
    rcases later.1 with none_ | ⟨wh, found, behind⟩
    · rw [none_]
      obtain ⟨low, high, here⟩ := ih later.2 we start
      refine ⟨low, high, ?_⟩
      rintro ⟨d, member, found⟩
      rcases List.mem_cons.mp member with rfl | member
      · rw [none_] at found
        cases found
      · exact here ⟨d, member, found⟩
    · rw [found]
      by_cases less : 0 < wh ∧ wh < we
      · simp only [if_pos less]
        obtain ⟨low, high, here⟩ := ih later.2 wh behind
        refine ⟨low, by omega, ?_⟩
        rintro ⟨d, member, found'⟩
        rcases List.mem_cons.mp member with rfl | member
        · rw [found] at found'
          cases found'
          omega
        · exact here ⟨d, member, found'⟩
      · simp only [if_neg less]
        obtain ⟨low, high, here⟩ := ih later.2 we start
        refine ⟨low, high, ?_⟩
        rintro ⟨d, member, found'⟩
        rcases List.mem_cons.mp member with rfl | member
        · rw [found] at found'
          cases found'
          omega
        · exact here ⟨d, member, found'⟩

/-- The text ends where the first of the accepted characters is. -/
theorem strpbrk_eq (split : str.drop idx = text ++ c :: rest) (positive : 0 < idx + text.length)
    (accepted : c ∈ accept) (absent : ∀ d ∈ accept, d ∉ text) :
    strpbrk str idx accept = idx + text.length := by
  have bound : idx + text.length ≤ str.length := by
    have length := congrArg List.length split
    rw [List.length_drop, List.length_append, List.length_cons] at length
    omega
  have later : ∀ d ∈ accept, indexOf str d idx = none ∨
      ∃ wh, indexOf str d idx = some wh ∧ idx + text.length ≤ wh :=
    fun d member => indexOf_of_notMem split (absent d member)
  exact (strpbrk_bounds _ positive accept later str.length bound).2.2
    ⟨c, accepted, indexOf_eq split (absent c accepted)⟩

/-- A closing parenthesis is not found where there is another character. -/
theorem strpbrk_ne (split : str.drop idx = text ++ c :: rest) (other : c ≠ ')') :
    strpbrk str idx [')'] ≠ idx + text.length := by
  have here : str[idx + text.length]? = some c := by
    rw [← List.getElem?_drop, split, List.getElem?_append_right le_rfl, Nat.sub_self]
    rfl
  have below : idx + text.length < str.length := (List.getElem?_eq_some_iff.mp here).1
  rw [strpbrk, List.foldl_cons, List.foldl_nil]
  cases found : indexOf str ')' idx with
  | none => exact Nat.ne_of_gt below
  | some wh =>
    dsimp only
    split_ifs
    · rintro rfl
      obtain ⟨i, first, same⟩ := Option.map_eq_some_iff.mp found
      obtain ⟨bound, paren, -⟩ := List.idxOf?_eq_some_iff.mp first
      obtain rfl : i = text.length := by omega
      rw [List.getElem_drop] at paren
      rw [List.getElem?_eq_getElem below] at here
      exact other ((Option.some.inj here).symm.trans paren)
    · exact Nat.ne_of_gt below

/-! ### The end of white space -/

theorem strspn_eq (split : str.drop idx = text ++ c :: rest) (white : ∀ d ∈ text, d ∈ accept)
    (other : c ∉ accept) : strspn str idx accept = idx + text.length := by
  have found : (str.drop idx).findIdx? (fun ch => ch ∉ accept) = some text.length := by
    rw [split, List.findIdx?_eq_some_iff_getElem]
    refine ⟨by simp, by simpa using other, fun j below => ?_⟩
    rw [List.getElem_append_left below]
    simpa using white _ (List.getElem_mem below)
  rw [strspn, found]

theorem strspn_end (white : ∀ d ∈ str.drop idx, d ∈ accept) :
    strspn str idx accept = str.length := by
  have none_ : (str.drop idx).findIdx? (fun ch => ch ∉ accept) = none := by
    rw [List.findIdx?_eq_none_iff]
    intro d member
    simpa using white d member
  rw [strspn, none_]

/-! ### The end of a phrase -/

/-- What has no parentheses is skipped. -/
theorem closerFrom_plain {cnt : ℤ} (opened : cnt ≠ 0) (plain : ∀ c ∈ text, c ≠ '(' ∧ c ≠ ')')
    (idx : ℕ) (rest : List Char) :
    closerFrom cnt idx (text ++ rest) = closerFrom cnt (idx + text.length) rest := by
  induction text generalizing idx with
  | nil => rfl
  | cons c text ih =>
    rw [List.forall_mem_cons] at plain
    rw [List.cons_append, closerFrom]
    simp only [if_neg plain.1.1, if_neg plain.1.2, if_neg opened]
    rw [ih plain.2, List.length_cons]
    congr 1
    omega

theorem plain_of_bare (bare : Bare text) : ∀ c ∈ text, c ≠ '(' ∧ c ≠ ')' :=
  fun c member => (bare c member).2

theorem plain_of_white (white : ∀ c ∈ text, c ∈ blanks) : ∀ c ∈ text, c ≠ '(' ∧ c ≠ ')' := by
  intro c member
  have listed := white c member
  constructor
  · rintro rfl
    exact absurd listed (by decide +kernel)
  · rintro rfl
    exact absurd listed (by decide +kernel)

/-- Elements are skipped when a parenthesis is open. -/
theorem closerFrom_text {elements : PhraseList} {first : Bool} (proper : elements.Proper first)
    {cnt : ℤ} (opened : 0 < cnt) (idx : ℕ) (rest : List Char) :
    closerFrom cnt idx (elements.text ++ rest) =
      closerFrom cnt (idx + elements.text.length) rest := by
  induction elements generalizing first cnt idx rest with
  | nil => rfl
  | word blank word next ih =>
    obtain ⟨⟨white, -⟩, -, bare, proper⟩ := proper
    rw [PhraseList.text, List.append_assoc, closerFrom_plain opened.ne' (plain_of_white white),
      List.append_assoc, closerFrom_plain opened.ne' (plain_of_bare bare), ih proper opened]
    simp only [List.length_append]
    congr 1
    omega
  | phrase blank type elements next ihElements ihNext =>
    obtain ⟨⟨white, -⟩, bare, proper, properNext⟩ := proper
    have deeper : cnt + 1 ≠ 0 := by omega
    rw [PhraseList.text, List.append_assoc, closerFrom_plain opened.ne' (plain_of_white white),
      List.cons_append, closerFrom]
    simp only [if_true, if_neg deeper]
    rw [List.append_assoc, closerFrom_plain deeper (plain_of_bare bare), List.append_assoc,
      ihElements proper (by omega), List.cons_append, closerFrom]
    have back : cnt + 1 - 1 = cnt := by omega
    simp only [back, Char.reduceEq, if_false, if_true, if_neg opened.ne']
    rw [ihNext properNext opened]
    simp only [List.length_append, List.length_cons]
    congr 1
    omega

/-- A phrase ends at its last character. -/
theorem closer_phrase {type : List Char} {elements : PhraseList} (bare : Bare type)
    (proper : elements.Proper true) (split : str.drop idx = phraseText type elements ++ rest) :
    closer str idx + 1 = idx + (phraseText type elements).length := by
  rw [closer, split, phraseText, List.cons_append, closerFrom]
  simp only [if_true, Int.zero_add, Int.one_ne_zero, if_false]
  rw [List.append_assoc, closerFrom_plain Int.one_ne_zero (plain_of_bare bare), List.append_assoc,
    closerFrom_text proper Int.one_pos, List.singleton_append, closerFrom]
  simp only [Char.reduceEq, if_false, if_true, Int.sub_self]
  simp only [List.length_cons, List.length_append, List.length_nil]
  omega

end PhraseMarkup

end ThinkingUnderstanding
