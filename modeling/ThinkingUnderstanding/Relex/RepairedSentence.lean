import Mathlib.Data.Int.Order.Basic
import ThinkingUnderstanding.Relex.EntityMaintainer

/-!
# The places of the words

The parser tells where a word stands in the converted sentence. `repairSentence` goes through the
words with the difference that the ids have made so far, and with the number of characters that have
been inserted before. When every id has been taken as one word, and every other word lies within
text that has been copied and is not itself the text of an id, a word ends up at the place of the
original sentence where the same text stands, and an id at the place of its entity. A sentence can
contain what is an id by chance: a word `emoticonID1` is taken for the first emoticon.

## Main definitions

* `EntityMaintainer.Cut` — the words of a parse, piece by piece
* `EntityMaintainer.Kept`, `EntityMaintainer.Identified`, `EntityMaintainer.Restored` — a word is
  where it stands in the original sentence

## Main results

* `EntityMaintainer.restored_repairWords` — from one piece to the next
* `EntityMaintainer.exists_restored` — for every sentence
-/

namespace ThinkingUnderstanding.EntityMaintainer

/-! ### Words and pieces -/

/-- The words of a parse that lie in a piece, which begins at `n`: an id is one word, and no other
word is the text of an id. -/
def Holds (m : EntityMaintainer) (n : ℕ) : Piece → List Word → Prop
  | .entity id _, words => ∃ w, words = [w] ∧ w.wordName = id ∧ w.startChar = n ∧
      w.endChar = n + id.length
  | p, words => ∀ w ∈ words, (n : ℤ) ≤ w.startChar ∧ w.startChar < w.endChar ∧
      w.endChar ≤ n + p.text.length ∧ m.getEntityInfo w.wordName = none

/-- The words of a parse, in the pieces from `n` on. -/
def Cut (m : EntityMaintainer) : ℕ → List Piece → List Word → Prop
  | _, [], words => words = []
  | n, p :: ps, words => ∃ here rest, words = here ++ rest ∧ Holds m n p here ∧
      Cut m (n + p.text.length) ps rest

/-- A word of the kept text is, after the repair, where the same text stands in the original
sentence. -/
def Kept (m : EntityMaintainer) (w w' : Word) : Prop :=
  ∃ i j : ℕ, w'.startChar = i ∧ w'.endChar = j ∧
    EntityInfo.slice m.originalSentence i j =
      EntityInfo.slice m.convertedSentence w.startChar.toNat w.endChar.toNat

/-- An id is, after the repair, at the place of its entity, whose text is its name. -/
def Identified (m : EntityMaintainer) (e : EntityInfo) (w w' : Word) : Prop :=
  w'.startChar = e.firstCharIndex ∧ w'.endChar = e.lastCharIndex ∧
    w'.refName = (w.refName.map fun _ => e.getOriginalString) ∧
    EntityInfo.slice m.originalSentence e.firstCharIndex e.lastCharIndex = e.getOriginalString

/-- The word `w'` is at the place of the original sentence for which the word `w` stands, unless
that is a character that has been inserted. -/
def Restored (m : EntityMaintainer) (w w' : Word) : Prop :=
  (∃ i ∈ m.insertedWhitespaceCharIndexes, w.startChar = i) ∨
    match m.getEntityInfo w.wordName with
    | some e => Identified m e w w'
    | none => Kept m w w'

variable {m : EntityMaintainer} {p : Piece} {ps done : List Piece} {words : List Word} {n : ℕ}
  {charDelta : ℤ} {sentence : List Char}

theorem slice_append {s t u : List Char} {i j : ℕ} (inside : j ≤ t.length) :
    EntityInfo.slice (s ++ (t ++ u)) (s.length + i) (s.length + j) = EntityInfo.slice t i j := by
  have width : s.length + j - (s.length + i) = j - i := by omega
  rw [EntityInfo.slice, EntityInfo.slice, List.drop_append, List.drop_eq_nil_of_le (by omega),
    List.nil_append, Nat.add_sub_cancel_left, width]
  rcases le_or_gt i j with le | lt
  · rw [List.drop_append_of_le_length (by omega), List.take_append_of_le_length]
    rw [List.length_drop]
    omega
  · rw [Nat.sub_eq_zero_of_le lt.le, List.take_zero, List.take_zero]

/-- Where the inserted characters of some pieces are. -/
theorem bounds_of_mem_insertedAt {i : ℕ} (member : i ∈ Piece.insertedAt n ps) :
    n ≤ i ∧ i < n + (ps.flatMap Piece.text).length := by
  induction ps generalizing n with
  | nil => exact absurd member List.not_mem_nil
  | cons p ps ih =>
    rw [List.flatMap_cons, List.length_append]
    cases p with
    | inserted c =>
      rcases List.mem_cons.mp member with rfl | later
      · exact ⟨le_rfl, by rw [Piece.text, List.length_singleton]; omega⟩
      · have within := ih later
        simp only [Piece.text, List.length_singleton]
        omega
    | copied text =>
      have within := ih member
      simp only [Piece.text] at within ⊢
      omega
    | entity id e =>
      have within := ih member
      simp only [Piece.text] at within ⊢
      omega

/-- The inserted characters before a word are those of the pieces before it. -/
theorem previouslyInsertedWhitespace_eq {early late : List ℕ} {index : ℤ}
    (inserted : m.insertedWhitespaceCharIndexes = early ++ late)
    (before : ∀ i ∈ early, (i : ℤ) < index) (behind : ∀ i ∈ late, index ≤ (i : ℤ)) :
    m.previouslyInsertedWhitespace index = early.length := by
  have all : early.filter (fun i : ℕ => decide ((i : ℤ) < index)) = early :=
    List.filter_eq_self.mpr fun i member => decide_eq_true (before i member)
  have none_ : late.filter (fun i : ℕ => decide ((i : ℤ) < index)) = [] := by
    refine List.filter_eq_nil_iff.mpr fun i member same => ?_
    have before := of_decide_eq_true same
    have after := behind i member
    omega
  rw [previouslyInsertedWhitespace, inserted, List.filter_append, all, none_, List.append_nil]

/-! ### From one piece to the next -/

/-- A word that is no id, after the repair. -/
def place (m : EntityMaintainer) (charDelta : ℤ) (w : Word) : Word :=
  { w with
    startChar := w.startChar + charDelta - m.previouslyInsertedWhitespace w.startChar
    endChar := w.endChar + charDelta - m.previouslyInsertedWhitespace w.startChar }

theorem repairWords_append {here : List Word}
    (plain : ∀ w ∈ here, m.getEntityInfo w.wordName = none) (rest : List Word) :
    m.repairWords charDelta (here ++ rest) =
      here.map (m.place charDelta) ++ m.repairWords charDelta rest := by
  induction here with
  | nil => rfl
  | cons w here ih =>
    rw [List.forall_mem_cons] at plain
    rw [List.cons_append, repairWords, plain.1, ih plain.2]
    rfl

section Pieces

variable (converted : ConvertedBy sentence m (done ++ p :: ps))
include converted

theorem inserted_eq : m.insertedWhitespaceCharIndexes =
    Piece.insertedAt 0 done ++ Piece.insertedAt (done.flatMap Piece.text).length (p :: ps) := by
  rw [converted.described.inserted, Piece.insertedAt_append, Nat.zero_add]

/-- The number of characters that are inserted before a word of the piece. -/
theorem previouslyInsertedWhitespace_of_piece {index : ℤ}
    (begins : ((done.flatMap Piece.text).length : ℤ) ≤ index)
    (free : ∀ i ∈ Piece.insertedAt (done.flatMap Piece.text).length (p :: ps), index ≤ (i : ℤ)) :
    m.previouslyInsertedWhitespace index = (Piece.insertedAt 0 done).length := by
  refine previouslyInsertedWhitespace_eq (inserted_eq converted) (fun i member => ?_) free
  have within := (bounds_of_mem_insertedAt member).2
  omega

/-- A text of the piece is found in the original sentence. -/
theorem slice_original {i j : ℕ} (inside : j ≤ p.source.length) :
    EntityInfo.slice m.originalSentence ((done.flatMap Piece.source).length + i)
      ((done.flatMap Piece.source).length + j) = EntityInfo.slice p.source i j := by
  rw [converted.original, converted.source, List.flatMap_append, List.flatMap_cons]
  exact slice_append inside

theorem slice_converted {i j : ℕ} (inside : j ≤ p.text.length) :
    EntityInfo.slice m.convertedSentence ((done.flatMap Piece.text).length + i)
      ((done.flatMap Piece.text).length + j) = EntityInfo.slice p.text i j := by
  rw [converted.described.text, List.flatMap_append, List.flatMap_cons]
  exact slice_append inside

/-- The entity of an id is found again, since all ids are different. -/
theorem getEntityInfo_of_piece {id : List Char} {e : EntityInfo} (same : p = .entity id e) :
    m.getEntityInfo id = some e := by
  have member : (id, e) ∈ m.iDs2Entities := by
    rw [converted.described.ids, same]
    simp [Piece.ids]
  have distinct := converted.described.distinct
  rw [getEntityInfo]
  generalize m.iDs2Entities = entries at member distinct
  induction entries with
  | nil => exact absurd member List.not_mem_nil
  | cons entry entries ih =>
    rw [List.map_cons, List.nodup_cons] at distinct
    rcases List.mem_cons.mp member with rfl | later
    · exact List.lookup_cons_self
    · have other : (id == entry.1) = false := by
        rw [beq_eq_false_iff_ne]
        rintro rfl
        exact distinct.1 (List.mem_map.mpr ⟨_, later, rfl⟩)
      rw [List.lookup_cons, other]
      exact ih later distinct.2

end Pieces

/-- What a conversion has added in the pieces before a word, and what `repairSentence` takes off. -/
def Balanced (charDelta : ℤ) (done : List Piece) : Prop :=
  charDelta = (done.flatMap Piece.source).length - (done.flatMap Piece.text).length +
    (Piece.insertedAt 0 done).length

/-- A word of a copied text. -/
theorem restored_place {text : List Char} {w : Word}
    (converted : ConvertedBy sentence m (done ++ .copied text :: ps))
    (balanced : Balanced charDelta done)
    (begins : ((done.flatMap Piece.text).length : ℤ) ≤ w.startChar)
    (proper : w.startChar < w.endChar)
    (ends : w.endChar ≤ (done.flatMap Piece.text).length + text.length)
    (no : m.getEntityInfo w.wordName = none) : Restored m w (m.place charDelta w) := by
  obtain ⟨i, start⟩ := Int.le.dest begins
  obtain ⟨j, stop⟩ := Int.le.dest (begins.trans proper.le)
  have before := previouslyInsertedWhitespace_of_piece converted begins fun k inserted => by
    have later : k ∈ Piece.insertedAt _ ps := inserted
    have bound := (bounds_of_mem_insertedAt later).1
    simp only [Piece.text] at bound
    omega
  have inside : j ≤ text.length := by omega
  rw [Restored, no]
  refine Or.inr ⟨(done.flatMap Piece.source).length + i, (done.flatMap Piece.source).length + j,
    ?_, ?_, ?_⟩
  · rw [place, before, balanced]
    push_cast
    omega
  · rw [place, before, balanced]
    push_cast
    omega
  · rw [slice_original converted (p := .copied text) inside, ← start, ← stop]
    exact (slice_converted converted (p := .copied text) inside).symm

/-- The words from a piece on are restored. -/
theorem restored_repairWords (converted : ConvertedBy sentence m (done ++ ps))
    (balanced : Balanced charDelta done) (cut : Cut m (done.flatMap Piece.text).length ps words) :
    List.Forall₂ (Restored m) words (m.repairWords charDelta words) := by
  induction ps generalizing done charDelta words with
  | nil =>
    obtain rfl : words = [] := cut
    exact List.Forall₂.nil
  | cons p ps ih =>
    obtain ⟨here, rest, rfl, holds, later⟩ := cut
    have more : done ++ p :: ps = done ++ [p] ++ ps := by simp
    have next : ∀ {charDelta' : ℤ}, Balanced charDelta' (done ++ [p]) →
        List.Forall₂ (Restored m) rest (m.repairWords charDelta' rest) := by
      intro charDelta' balanced'
      refine ih (more ▸ converted) balanced' ?_
      simpa using later
    simp only [Balanced, List.flatMap_append, List.flatMap_singleton, List.length_append,
      Piece.insertedAt_append, Nat.zero_add] at next balanced
    cases p with
    | copied text =>
      have plain : ∀ w ∈ here, m.getEntityInfo w.wordName = none := fun w member =>
        (holds w member).2.2.2
      rw [repairWords_append plain]
      refine List.rel_append (List.forall₂_map_right_iff.mpr ?_) (next ?_)
      · refine List.forall₂_same.mpr fun w member => ?_
        obtain ⟨begins, proper, ends, no⟩ := holds w member
        exact restored_place converted balanced begins proper ends no
      · simp only [Piece.source, Piece.text, Piece.insertedAt, List.length_nil]
        push_cast
        omega
    | inserted c =>
      have plain : ∀ w ∈ here, m.getEntityInfo w.wordName = none := fun w member =>
        (holds w member).2.2.2
      rw [repairWords_append plain]
      refine List.rel_append (List.forall₂_map_right_iff.mpr ?_) (next ?_)
      · refine List.forall₂_same.mpr fun w member => Or.inl ?_
        obtain ⟨begins, proper, ends, -⟩ := holds w member
        refine ⟨(done.flatMap Piece.text).length, ?_, ?_⟩
        · rw [inserted_eq converted]
          exact List.mem_append_right _ List.mem_cons_self
        · simp only [Piece.text, List.length_singleton] at ends
          omega
      · simp only [Piece.source, Piece.text, Piece.insertedAt, List.length_nil,
          List.length_singleton]
        push_cast
        omega
    | entity id e =>
      obtain ⟨w, rfl, name, start, stop⟩ := holds
      have known := getEntityInfo_of_piece converted rfl
      have before := previouslyInsertedWhitespace_of_piece converted start.ge fun k inserted => by
        have bound := (bounds_of_mem_insertedAt inserted).1
        rw [start]
        omega
      obtain ⟨first, last⟩ := (Piece.placed_append.mp converted.placed).2.1
      rw [Nat.zero_add] at first last
      rw [List.singleton_append, repairWords, name, known]
      refine List.Forall₂.cons ?_ (next ?_)
      · rw [Restored, name, known]
        refine Or.inr ⟨?_, ?_, rfl, ?_⟩
        · simp only [before, first]
          omega
        · simp only [before, stop, last]
          push_cast
          omega
        · have whole := slice_original converted (p := .entity id e) (i := 0) (le_refl _)
          rw [Nat.add_zero] at whole
          rw [first, last]
          refine whole.trans ?_
          simp [EntityInfo.slice, Piece.source]
      · simp only [Piece.source, Piece.text, Piece.insertedAt, List.length_nil]
        push_cast
        omega

/-- Every sentence is converted, and after the repair the words of any parse that takes the ids as
words are where they stand in it. The left wall stands nowhere. -/
theorem exists_restored (sentence : List Char) : ∃ es m,
    convertSentence [] sentence = (es, some m) ∧ (∃ ps, ConvertedBy sentence m ps) ∧
      ∀ ps wall words, ConvertedBy sentence m ps → wall.startChar = -1 → wall.endChar = -1 →
        m.getEntityInfo wall.wordName = none → Cut m 0 ps words →
          ∃ words', m.repairSentence (wall :: words) = wall :: words' ∧
            List.Forall₂ (Restored m) words words' := by
  obtain ⟨m, ps, run, converted⟩ := exists_convertedBy (remaining_new sentence)
  refine ⟨_, m, run, ⟨ps, converted⟩, fun ps wall words converted start stop no cut => ?_⟩
  have before : m.previouslyInsertedWhitespace (-1) = 0 :=
    previouslyInsertedWhitespace_eq (List.nil_append _).symm
      (fun _ member => absurd member List.not_mem_nil) (fun i _ => by omega)
  have start' : ConvertedBy sentence m ([] ++ ps) := converted
  refine ⟨m.repairWords 0 words, ?_, restored_repairWords start' rfl cut⟩
  have same : m.place 0 wall = wall := by
    rw [place, start, stop, before]
    cases wall
    simp_all
  rw [repairSentence, repairWords, no]
  exact congrArg (· :: m.repairWords 0 words) same

/-- The word behind an emoticon, and the emoticon, get back their places. -/
example : ((convertSentence [] "Hi :-) yes".toList).2.map fun m =>
    (m.repairSentence [⟨"Hi".toList, 0, 2, none⟩, ⟨"emoticonID1".toList, 3, 14, none⟩,
      ⟨"yes".toList, 15, 18, none⟩]).map fun w => (w.startChar, w.endChar)) =
    some [(0, 2), (3, 6), (7, 10)] := by
  decide +kernel

/-- The emoticon of `Hi:-) yes`. -/
def hiEmoticon : EntityInfo :=
  { originalSentence := "Hi:-) yes".toList, firstCharIndex := 2, lastCharIndex := 5,
    proper := by decide, type := "EMOTICON" }

/-- `Hi:-) yes`, converted: a blank has been inserted before the id. -/
def hiYes : EntityMaintainer where
  originalSentence := "Hi:-) yes".toList
  convertedSentence := "Hi emoticonID1 yes".toList
  iDs2Entities := [("emoticonID1".toList, hiEmoticon)]
  entityIDIndex := 1
  insertedWhitespaceCharIndexes := [2]

/-- Its pieces. -/
def hiYesPieces : List Piece :=
  [.copied "Hi".toList, .inserted ' ', .entity "emoticonID1".toList hiEmoticon,
    .copied " yes".toList]

/-- The words that a parser finds in it. -/
def hiYesWords : List Word :=
  [⟨"Hi".toList, 0, 2, none⟩, ⟨"emoticonID1".toList, 3, 14, some "emoticonID1".toList⟩,
    ⟨"yes".toList, 15, 18, none⟩]

theorem hiYes_convertedBy : ConvertedBy "Hi:-) yes".toList hiYes hiYesPieces where
  original := rfl
  described :=
    { text := rfl
      inserted := rfl
      ids := rfl
      numbered x member := by
        rcases List.mem_singleton.mp member with rfl
        exact ⟨"emoticonID", by decide, 1, le_rfl, by decide +kernel⟩
      distinct := by decide }
  source := rfl
  bare := by simp [hiYesPieces, Piece.text, brackets]
  usual := by simp [hiYesPieces, Piece.Usual]
  placed := ⟨trivial, trivial, ⟨rfl, rfl⟩, trivial, trivial⟩

theorem cut_hiYes : Cut hiYes 0 hiYesPieces hiYesWords := by
  refine ⟨[_], _, rfl, ?_, [], _, rfl, List.forall_mem_nil _, [_], _, rfl, ?_, [_], _, rfl, ?_, rfl⟩
  · exact List.forall_mem_singleton.mpr (by decide)
  · exact ⟨_, rfl, rfl, rfl, rfl⟩
  · exact List.forall_mem_singleton.mpr (by decide)

/-- The words of `Hi:-) yes` are found again. -/
theorem hiYes_restored : ∃ m, (convertSentence [] "Hi:-) yes".toList).2 = some m ∧ ∃ words',
    m.repairSentence (⟨"LEFT-WALL".toList, -1, -1, none⟩ :: hiYesWords) =
        ⟨"LEFT-WALL".toList, -1, -1, none⟩ :: words' ∧
      List.Forall₂ (Restored m) hiYesWords words' := by
  obtain ⟨es, m, run, -, restored⟩ := exists_restored "Hi:-) yes".toList
  have same : (convertSentence [] "Hi:-) yes".toList).2 = some hiYes := rfl
  rw [run] at same
  obtain rfl : m = hiYes := Option.some.inj same
  exact ⟨hiYes, by rw [run], restored hiYesPieces _ hiYesWords hiYes_convertedBy rfl rfl (by decide)
    cut_hiYes⟩

end ThinkingUnderstanding.EntityMaintainer
