import ThinkingUnderstanding.Relex.Entities

/-!
# The sentence that is parsed

An `EntityMaintainer` makes a copy of a sentence in which every entity is replaced by an id, so that
the parser takes it as one word. Blanks are put around the ids where there are none, and a period at
the end where an entity has taken the one of the sentence. After the parse, the words get back the
places that they have in the original sentence.

The converted sentence is described by its pieces: text that has been copied, characters that have
been inserted, and ids. With an ordinary tagger it exists, its pieces stand for the original
sentence, and it has no brackets.

## Main definitions

* `EntityMaintainer.convertSentence`, `EntityMaintainer.repairSentence` — the source's functions
* `Piece`, `EntityMaintainer.ConvertedBy` — a converted sentence and its pieces
* `Piece.Usual`, `Piece.Placed` — what is inserted, and where the entities are

## Main results

* `EntityMaintainer.exists_convertedBy` — a sentence is converted, piece by piece
* `EntityMaintainer.convertSentence_no_bracket` — no bracket is left
-/

namespace ThinkingUnderstanding

/-- `Character.isWhitespace`. -/
def isWhitespace (c : Char) : Bool :=
  (9 ≤ c.toNat && c.toNat ≤ 13) || (28 ≤ c.toNat && c.toNat ≤ 32) || c.toNat == 0x1680 ||
    (0x2000 ≤ c.toNat && c.toNat ≤ 0x200A && c.toNat != 0x2007) || c.toNat == 0x2028 ||
    c.toNat == 0x2029 || c.toNat == 0x205F || c.toNat == 0x3000

/-- `EntityMaintainer`, what `convertSentence` sets in it. -/
structure EntityMaintainer where
  originalSentence : List Char
  convertedSentence : List Char := []
  /-- The entry that has been put last is the first one. -/
  iDs2Entities : List (List Char × EntityInfo) := []
  entityIDIndex : ℕ := 0
  insertedWhitespaceCharIndexes : List ℕ := []

/-- A word of a parse, as far as `repairSentence` reads and changes it. -/
structure Word where
  /-- The feature `str`. -/
  wordName : List Char
  startChar : ℤ
  endChar : ℤ
  /-- The name of the node `ref`, when there is one. -/
  refName : Option (List Char) := none

namespace EntityMaintainer

/-- `EntityMaintainer.isLegalEntityFollowingString`. -/
def isLegalEntityFollowingString : List Char → Bool
  | [] => true
  | c :: s => isWhitespace c || c == '.' || c == ',' || c == ';' || c == ':' ||
      "'s ".toList.isPrefixOf (c :: s) || "' ".toList.isPrefixOf (c :: s)

/-- A text is added to the converted sentence. -/
def append (m : EntityMaintainer) (text : List Char) : EntityMaintainer :=
  { m with convertedSentence := m.convertedSentence ++ text }

/-- A character is added to the converted sentence, and its index is kept. -/
def insert (m : EntityMaintainer) (c : Char) : EntityMaintainer :=
  { m with
    convertedSentence := m.convertedSentence ++ [c]
    insertedWhitespaceCharIndexes :=
      m.insertedWhitespaceCharIndexes ++ [m.convertedSentence.length] }

/-- The text of an id. -/
def idText (idStringPrefix : String) (index : ℕ) : List Char :=
  idStringPrefix.toList ++ Nat.toDigits 10 index

/-- `convertedSentence += makeID(eInfo)`, nothing when it raises an exception. -/
def makeID (m : EntityMaintainer) (e : EntityInfo) : Option EntityMaintainer :=
  e.idStringPrefix.map fun text =>
    { m with
      convertedSentence := m.convertedSentence ++ idText text (m.entityIDIndex + 1)
      entityIDIndex := m.entityIDIndex + 1
      iDs2Entities := (idText text (m.entityIDIndex + 1), e) :: m.iDs2Entities }

/-- White space before an entity, when there is none. -/
def insertLeading (m : EntityMaintainer) : EntityMaintainer :=
  if m.convertedSentence.getLast?.any fun c => !isWhitespace c then m.insert ' ' else m

/-- A period at the end, when the entity has the one of the sentence. -/
def insertPeriod (m : EntityMaintainer) (e : EntityInfo) : EntityMaintainer :=
  if m.originalSentence.length = e.lastCharIndex ∧
      m.originalSentence[e.lastCharIndex - 1]? = some '.' then
    m.insert '.'
  else m

/-- White space behind an entity, when what follows is not legal there. -/
def insertTrailing (m : EntityMaintainer) (e : EntityInfo) : EntityMaintainer :=
  if e.lastCharIndex < m.originalSentence.length ∧
      isLegalEntityFollowingString (m.originalSentence.drop e.lastCharIndex) = false then
    m.insert ' '
  else m

/-- An entity takes the period that follows it. -/
def takePeriod (sentence : List Char) (e : EntityInfo) : EntityInfo :=
  if sentence[e.lastCharIndex]? = some '.' then e.extend else e

/-- The body of the loop of `createConvertedSentence`, with the entity as it is left. The second
result is the new value of `curIndex`, and nothing when there is an exception. -/
def convertEntity (e : EntityInfo) (curIndex : ℕ) (m : EntityMaintainer) :
    EntityInfo × Option (ℕ × EntityMaintainer) :=
  -- an entity that starts too early is left out
  if e.firstCharIndex < curIndex ∧ e.firstCharIndex + 1 ≠ curIndex then (e, some (curIndex, m))
  -- `substring` raises an exception for an entity behind the end
  else if m.originalSentence.length < e.firstCharIndex then (e, none)
  else
    let e' := takePeriod m.originalSentence e
    let preceding := EntityInfo.slice m.originalSentence (min curIndex e.firstCharIndex)
      e.firstCharIndex
    match (m.append preceding).insertLeading.makeID e' with
    | none => (e', none)
    | some m' => (e', some (e'.lastCharIndex, (m'.insertPeriod e').insertTrailing e'))

/-- The loop of `createConvertedSentence`. -/
def convertEntities : EntityTagger → ℕ → EntityMaintainer →
    EntityTagger × Option (ℕ × EntityMaintainer)
  | [], curIndex, m => ([], some (curIndex, m))
  | e :: es, curIndex, m =>
      match convertEntity e curIndex m with
      | (e', none) => (e' :: es, none)
      | (e', some (curIndex', m')) =>
          let (es', res) := convertEntities es curIndex' m'
          (e' :: es', res)

/-- `EntityMaintainer.createConvertedSentence`. -/
def createConvertedSentence (tagger : EntityTagger) (m : EntityMaintainer) :
    EntityTagger × Option EntityMaintainer :=
  let orderedEntityInfos := EntityTaggerBasic.tagEntities tagger m.originalSentence
  if orderedEntityInfos.isEmpty then
    (orderedEntityInfos, some { m with convertedSentence := m.originalSentence })
  else
    let (es, res) := convertEntities orderedEntityInfos 0 m
    -- the remaining portion of the original sentence is copied
    (es, res.map fun (curIndex, m) => m.append (m.originalSentence.drop curIndex))

/-- `EntityMaintainer.convertSentence(sentence, null)`: the entities that the tagger has afterwards,
and what is set unless there is an exception. -/
def convertSentence (tagger : EntityTagger) (sentence : List Char) :
    EntityTagger × Option EntityMaintainer :=
  createConvertedSentence tagger { originalSentence := sentence }

/-- `EntityMaintainer.getEntityInfo`, nothing for what is no id. -/
def getEntityInfo (m : EntityMaintainer) (entityID : List Char) : Option EntityInfo :=
  m.iDs2Entities.lookup entityID

/-- `EntityMaintainer.previouslyInsertedWhitespace`. -/
def previouslyInsertedWhitespace (m : EntityMaintainer) (index : ℤ) : ℕ :=
  (m.insertedWhitespaceCharIndexes.filter fun (inserted : ℕ) => (inserted : ℤ) < index).length

/-- The loop of `repairSentence`. -/
def repairWords (m : EntityMaintainer) : ℤ → List Word → List Word
  | _, [] => []
  | charDelta, w :: words =>
      let previousWhiteSpace : ℤ := m.previouslyInsertedWhitespace w.startChar
      match m.getEntityInfo w.wordName with
      | none =>
          { w with
            startChar := w.startChar + charDelta - previousWhiteSpace
            endChar := w.endChar + charDelta - previousWhiteSpace } :: repairWords m charDelta words
      | some entInfo =>
          let origName := entInfo.getOriginalString
          let charDelta' := charDelta + (origName.length - w.wordName.length)
          { w with
            startChar := w.startChar + charDelta - previousWhiteSpace
            endChar := w.endChar + charDelta' - previousWhiteSpace
            refName := w.refName.map fun _ => origName } :: repairWords m charDelta' words

/-- `EntityMaintainer.repairSentence`, for the words from the left one on. -/
def repairSentence (m : EntityMaintainer) (words : List Word) : List Word :=
  repairWords m 0 words

/-! ### Ids -/

variable {k k' : ℕ} {text text' : String}

/-- An id ends with its index, since no prefix of a tagged entity ends with a digit. -/
theorem index_of_idText (known : text ∈ taggedPrefixes) :
    (idText text k).reverse.takeWhile Char.isDigit = (Nat.toDigits 10 k).reverse := by
  have digits : ∀ c ∈ (Nat.toDigits 10 k).reverse, c.isDigit = true := fun c member =>
    Nat.isDigit_of_mem_toDigits (by decide) (by decide) (List.mem_reverse.mp member)
  have ends : text.toList.reverse.takeWhile Char.isDigit = [] := by
    have all : ∀ text ∈ taggedPrefixes, text.toList.reverse.takeWhile Char.isDigit = [] := by
      decide +kernel
    exact all text known
  rw [idText, List.reverse_append, List.takeWhile_append_of_pos digits, ends, List.append_nil]

theorem idText_inj (known : text ∈ taggedPrefixes) (known' : text' ∈ taggedPrefixes)
    (same : idText text k = idText text' k') : k = k' := by
  have digits := index_of_idText (k := k) known
  rw [same, index_of_idText known'] at digits
  rw [← Nat.ofDigitChars_ten_toDigits (n := k), ← List.reverse_injective digits,
    Nat.ofDigitChars_ten_toDigits]

end EntityMaintainer

/-! ### Pieces -/

/-- A piece of a converted sentence. -/
inductive Piece
  | copied (text : List Char)
  | inserted (c : Char)
  | entity (id : List Char) (e : EntityInfo)

namespace Piece

/-- The piece in the converted sentence. -/
def text : Piece → List Char
  | copied text => text
  | inserted c => [c]
  | entity id _ => id

/-- What the piece stands for in the original sentence. -/
def source : Piece → List Char
  | copied text => text
  | inserted _ => []
  | entity _ e => e.getOriginalString

/-- The id of the piece, with its entity. -/
def ids : Piece → List (List Char × EntityInfo)
  | entity id e => [(id, e)]
  | _ => []

/-- The indices of the inserted characters, when the first piece begins at `n`. -/
def insertedAt : ℕ → List Piece → List ℕ
  | _, [] => []
  | n, inserted _ :: ps => n :: insertedAt (n + 1) ps
  | n, p :: ps => insertedAt (n + p.text.length) ps

/-- What is inserted is a blank or a period. -/
def Usual : Piece → Prop
  | inserted c => c = ' ' ∨ c = '.'
  | _ => True

/-- An entity has the place of the original sentence that begins at `n`. -/
def Begins (n : ℕ) : Piece → Prop
  | entity _ e => e.firstCharIndex = n ∧ e.lastCharIndex = n + e.getOriginalString.length
  | _ => True

/-- The entities have the places for which their pieces stand, when the first piece stands for what
begins at `n`. -/
def Placed : ℕ → List Piece → Prop
  | _, [] => True
  | n, p :: ps => p.Begins n ∧ Placed (n + p.source.length) ps

/-- The pieces are characters that a conversion inserts. -/
def Filling (ps : List Piece) : Prop := ∀ p ∈ ps, p = inserted ' ' ∨ p = inserted '.'

variable {ps qs : List Piece} {n : ℕ}

theorem insertedAt_append : insertedAt n (ps ++ qs) =
    insertedAt n ps ++ insertedAt (n + (ps.flatMap text).length) qs := by
  induction ps generalizing n with
  | nil => simp [insertedAt]
  | cons p ps ih =>
    cases p <;> simp [insertedAt, ih, text, Nat.add_assoc, Nat.add_comm 1]

theorem placed_append : Placed n (ps ++ qs) ↔
    Placed n ps ∧ Placed (n + (ps.flatMap source).length) qs := by
  induction ps generalizing n with
  | nil => simp [Placed]
  | cons p ps ih =>
    rw [List.cons_append, Placed, ih, Placed, List.flatMap_cons, List.length_append, and_assoc,
      Nat.add_assoc]

theorem Filling.placed (filling : Filling ps) : Placed n ps := by
  induction ps generalizing n with
  | nil => trivial
  | cons p ps ih =>
    rw [Filling, List.forall_mem_cons] at filling
    refine ⟨?_, ih filling.2⟩
    rcases filling.1 with rfl | rfl
    · trivial
    · trivial

theorem Filling.usual (filling : Filling ps) : ∀ p ∈ ps, p.Usual := by
  intro p member
  rcases filling p member with rfl | rfl
  · exact Or.inl rfl
  · exact Or.inr rfl

theorem Filling.source_eq (filling : Filling ps) : ps.flatMap source = [] := by
  refine List.flatMap_eq_nil_iff.mpr fun p member => ?_
  rcases filling p member with rfl | rfl <;> rfl

theorem filling_nil : Filling [] := fun _ member => absurd member List.not_mem_nil

end Piece

namespace EntityMaintainer

section Original

variable {m : EntityMaintainer} {e : EntityInfo}

@[simp] theorem originalSentence_insertLeading :
    m.insertLeading.originalSentence = m.originalSentence := by
  rw [insertLeading]
  split_ifs <;> rfl

@[simp] theorem originalSentence_insertPeriod :
    (m.insertPeriod e).originalSentence = m.originalSentence := by
  rw [insertPeriod]
  split_ifs <;> rfl

@[simp] theorem originalSentence_insertTrailing :
    (m.insertTrailing e).originalSentence = m.originalSentence := by
  rw [insertTrailing]
  split_ifs <;> rfl

end Original

/-- What has been converted so far is made of the pieces. -/
structure Described (m : EntityMaintainer) (ps : List Piece) : Prop where
  text : m.convertedSentence = ps.flatMap Piece.text
  inserted : m.insertedWhitespaceCharIndexes = Piece.insertedAt 0 ps
  ids : m.iDs2Entities = (ps.flatMap Piece.ids).reverse
  numbered : ∀ x ∈ m.iDs2Entities, ∃ text ∈ taggedPrefixes, ∃ k ≤ m.entityIDIndex,
    x.1 = idText text k
  distinct : (m.iDs2Entities.map Prod.fst).Nodup

namespace Described

variable {m : EntityMaintainer} {ps : List Piece} (here : Described m ps)
include here

theorem append (text : List Char) : Described (m.append text) (ps ++ [.copied text]) where
  text := by simp [EntityMaintainer.append, here.text, Piece.text]
  inserted := by simp [EntityMaintainer.append, here.inserted, Piece.insertedAt_append,
    Piece.insertedAt]
  ids := by simp [EntityMaintainer.append, here.ids, Piece.ids]
  numbered := here.numbered
  distinct := here.distinct

theorem insert (c : Char) : Described (m.insert c) (ps ++ [.inserted c]) where
  text := by simp [EntityMaintainer.insert, here.text, Piece.text]
  inserted := by simp [EntityMaintainer.insert, here.inserted, here.text, Piece.insertedAt_append,
    Piece.insertedAt]
  ids := by simp [EntityMaintainer.insert, here.ids, Piece.ids]
  numbered := here.numbered
  distinct := here.distinct

/-- A character that is inserted on a condition. -/
theorem insertIf (condition : Prop) [Decidable condition] {c : Char} (filler : c = ' ' ∨ c = '.') :
    ∃ qs, Piece.Filling qs ∧ Described (if condition then m.insert c else m) (ps ++ qs) := by
  split_ifs
  · refine ⟨[.inserted c], fun p member => ?_, here.insert c⟩
    obtain rfl := List.mem_singleton.mp member
    exact filler.imp (congrArg Piece.inserted) (congrArg Piece.inserted)
  · exact ⟨[], Piece.filling_nil, by rwa [List.append_nil]⟩

theorem insertLeading : ∃ qs, Piece.Filling qs ∧ Described m.insertLeading (ps ++ qs) :=
  here.insertIf _ (Or.inl rfl)

theorem insertPeriod (e : EntityInfo) :
    ∃ qs, Piece.Filling qs ∧ Described (m.insertPeriod e) (ps ++ qs) :=
  here.insertIf _ (Or.inr rfl)

theorem insertTrailing (e : EntityInfo) :
    ∃ qs, Piece.Filling qs ∧ Described (m.insertTrailing e) (ps ++ qs) :=
  here.insertIf _ (Or.inl rfl)

theorem makeID {e : EntityInfo} {text : String} (known : text ∈ taggedPrefixes)
    (named : e.idStringPrefix = some text) : ∃ m', m.makeID e = some m' ∧
      m'.originalSentence = m.originalSentence ∧
      Described m' (ps ++ [.entity (idText text (m.entityIDIndex + 1)) e]) := by
  rw [EntityMaintainer.makeID, named]
  refine ⟨_, rfl, rfl, ?_, ?_, ?_, ?_, ?_⟩
  · simp [here.text, Piece.text]
  · simp [here.inserted, Piece.insertedAt_append, Piece.insertedAt]
  · simp [here.ids, Piece.ids]
  · refine List.forall_mem_cons.mpr ⟨⟨text, known, _, le_rfl, rfl⟩, fun x member => ?_⟩
    obtain ⟨text', known', k, le, same⟩ := here.numbered x member
    exact ⟨text', known', k, Nat.le_succ_of_le le, same⟩
  · refine List.nodup_cons.mpr ⟨fun member => ?_, here.distinct⟩
    -- an id that is there has a smaller index
    obtain ⟨x, old, same⟩ := List.mem_map.mp member
    obtain ⟨text', known', k, le, eq⟩ := here.numbered x old
    have index := idText_inj known' known (eq.symm.trans same)
    omega

end Described

/-! ### One entity after another -/

/-- The brackets that are taken out. -/
def brackets : List Char := ['(', ')', '[', ']']

/-- The sentence has been converted up to `curIndex`, into the pieces. -/
structure Converting (sentence : List Char) (m : EntityMaintainer) (curIndex : ℕ)
    (ps : List Piece) : Prop where
  original : m.originalSentence = sentence
  described : Described m ps
  source : sentence.take curIndex = ps.flatMap Piece.source
  within : curIndex ≤ sentence.length
  bare : ∀ p ∈ ps, ∀ c ∈ p.text, c ∉ brackets
  usual : ∀ p ∈ ps, p.Usual
  placed : Piece.Placed 0 ps

/-- What is left to convert: the entities that begin from `curIndex` on. -/
structure Remaining (sentence : List Char) (curIndex : ℕ) (es : List EntityInfo) : Prop where
  apart : Math.Apart EntityInfo.firstCharIndex EntityInfo.lastCharIndex curIndex es
  found : ∀ e ∈ es, e.FoundIn sentence
  covered : ∀ i c, curIndex ≤ i → sentence[i]? = some c → c ∈ brackets →
    ∃ e ∈ es, e.firstCharIndex ≤ i ∧ i < e.lastCharIndex

theorem take_append_slice {text : List Char} {i j : ℕ} (le : i ≤ j) :
    text.take i ++ EntityInfo.slice text i j = text.take j := by
  rw [EntityInfo.slice, ← List.take_add, Nat.add_sub_cancel' le]

theorem mem_slice {text : List Char} {i j : ℕ} {c : Char} (member : c ∈ EntityInfo.slice text i j) :
    ∃ k, i ≤ k ∧ k < j ∧ text[k]? = some c := by
  obtain ⟨k, inside, same⟩ := List.mem_iff_getElem.mp member
  simp only [EntityInfo.slice, List.getElem_take, List.getElem_drop] at same
  simp only [EntityInfo.slice, List.length_take, List.length_drop] at inside
  exact ⟨i + k, by omega, by omega, List.getElem?_eq_some_iff.mpr ⟨by omega, same⟩⟩

theorem not_mem_brackets_of_mem_idText {text : String} {k : ℕ} {c : Char}
    (known : text ∈ taggedPrefixes) (member : c ∈ idText text k) : c ∉ brackets := by
  rcases List.mem_append.mp member with start | digits
  · have all : (taggedPrefixes.all fun text => text.toList.all fun c => !brackets.contains c) =
        true := by decide +kernel
    have bare := List.all_eq_true.mp (List.all_eq_true.mp all text known) c start
    simpa using bare
  · have digit := Nat.isDigit_of_mem_toDigits (by decide) (by decide) digits
    intro bracket
    have none_ : (brackets.all fun c => !c.isDigit) = true := by decide +kernel
    simpa [digit] using List.all_eq_true.mp none_ c bracket

section Entity

variable {sentence : List Char} {e : EntityInfo} {es : List EntityInfo} {curIndex : ℕ}

@[simp] theorem firstCharIndex_takePeriod :
    (takePeriod sentence e).firstCharIndex = e.firstCharIndex := by
  rw [takePeriod]
  split_ifs <;> rfl

@[simp] theorem originalSentence_takePeriod :
    (takePeriod sentence e).originalSentence = e.originalSentence := by
  rw [takePeriod]
  split_ifs <;> rfl

@[simp] theorem idStringPrefix_takePeriod :
    (takePeriod sentence e).idStringPrefix = e.idStringPrefix := by
  rw [takePeriod]
  split_ifs <;> rfl

theorem le_lastCharIndex_takePeriod : e.lastCharIndex ≤ (takePeriod sentence e).lastCharIndex := by
  rw [takePeriod]
  split_ifs
  · exact Nat.le_succ _
  · exact le_rfl

theorem lastCharIndex_takePeriod_le (within : e.lastCharIndex ≤ sentence.length) :
    (takePeriod sentence e).lastCharIndex ≤ sentence.length := by
  rw [takePeriod]
  split_ifs with period
  · exact (List.getElem?_eq_some_iff.mp period).1
  · exact within

/-- An entity that has taken a period still ends before the next one, which does not begin with
a period. -/
theorem Remaining.tail (remaining : Remaining sentence curIndex (e :: es)) :
    Remaining sentence (takePeriod sentence e).lastCharIndex es := by
  obtain ⟨-, proper, later⟩ := remaining.apart
  refine ⟨?_, fun e' member => remaining.found e' (List.mem_cons_of_mem e member), ?_⟩
  · rw [takePeriod]
    split_ifs with period
    · cases es with
      | nil => trivial
      | cons next es =>
        have start := (remaining.found next (by simp)).start
        have apart : e.lastCharIndex ≠ next.firstCharIndex := by
          intro same
          rw [← same, period] at start
          exact start rfl
        exact ⟨lt_of_le_of_ne later.1 apart, later.2⟩
    · exact later
  · intro i c behind here bracket
    have le : e.lastCharIndex ≤ (takePeriod sentence e).lastCharIndex :=
      le_lastCharIndex_takePeriod
    have first := remaining.apart.1
    obtain ⟨e', member, begins, ends⟩ := remaining.covered i c (by omega) here bracket
    rcases List.mem_cons.mp member with rfl | member
    · omega
    · exact ⟨e', member, begins, ends⟩

/-- Between the entities there are no brackets. -/
theorem Remaining.bare_slice (remaining : Remaining sentence curIndex (e :: es)) {c : Char}
    (member : c ∈ EntityInfo.slice sentence curIndex e.firstCharIndex) : c ∉ brackets := by
  intro bracket
  obtain ⟨k, begins, ends, here⟩ := mem_slice member
  obtain ⟨e', member', first, -⟩ := remaining.covered k c begins here bracket
  obtain ⟨-, proper, later⟩ := remaining.apart
  rcases List.mem_cons.mp member' with rfl | behind
  · omega
  · have start := later.le_first e' behind
    omega

end Entity

theorem bare_of_filling {qs : List Piece} (filling : Piece.Filling qs) :
    ∀ p ∈ qs, ∀ c ∈ p.text, c ∉ brackets := by
  intro p member c inside
  rcases filling p member with rfl | rfl
  · rw [List.mem_singleton.mp inside]
    decide
  · rw [List.mem_singleton.mp inside]
    decide

/-- An entity that does not begin before `curIndex` is converted. -/
theorem Converting.convertEntity {sentence : List Char} {m : EntityMaintainer} {curIndex : ℕ}
    {ps : List Piece} {e : EntityInfo} {es : List EntityInfo}
    (here : Converting sentence m curIndex ps) (remaining : Remaining sentence curIndex (e :: es)) :
    ∃ m' ps', EntityMaintainer.convertEntity e curIndex m = (takePeriod sentence e,
        some ((takePeriod sentence e).lastCharIndex, m')) ∧
      Converting sentence m' (takePeriod sentence e).lastCharIndex ps' := by
  have begins := remaining.apart.1
  have proper := remaining.apart.2.1
  have found := remaining.found e List.mem_cons_self
  have within := found.within
  have longer : e.lastCharIndex ≤ (takePeriod sentence e).lastCharIndex :=
    le_lastCharIndex_takePeriod
  have original := here.original
  obtain ⟨text, known, named⟩ := found.named
  have same : (takePeriod sentence e).idStringPrefix = e.idStringPrefix :=
    idStringPrefix_takePeriod
  rw [← same] at named
  -- the text before the entity and a blank, the id, and what follows it
  have copied := here.described.append (EntityInfo.slice sentence curIndex e.firstCharIndex)
  obtain ⟨lead, filling₁, blank⟩ := copied.insertLeading
  obtain ⟨m₁, made, original₁, id⟩ := blank.makeID known named
  obtain ⟨period, filling₂, ended⟩ := id.insertPeriod (takePeriod sentence e)
  obtain ⟨trail, filling₃, done⟩ := ended.insertTrailing (takePeriod sentence e)
  rw [originalSentence_insertLeading] at original₁
  have preceding : sentence.take curIndex ++ EntityInfo.slice sentence curIndex e.firstCharIndex =
      sentence.take e.firstCharIndex := take_append_slice begins
  have own : (takePeriod sentence e).getOriginalString =
      EntityInfo.slice sentence e.firstCharIndex (takePeriod sentence e).lastCharIndex := by
    rw [EntityInfo.getOriginalString, originalSentence_takePeriod, found.original,
      firstCharIndex_takePeriod]
  have reached : (ps.flatMap Piece.source).length + (EntityInfo.slice sentence curIndex
      e.firstCharIndex).length = e.firstCharIndex := by
    rw [← here.source, ← List.length_append, preceding, List.length_take]
    omega
  refine ⟨_, _, ?_, ⟨?_, done, ?_, lastCharIndex_takePeriod_le within, ?_, ?_, ?_⟩⟩
  · have start : ¬ (e.firstCharIndex < curIndex ∧ e.firstCharIndex + 1 ≠ curIndex) := by omega
    rw [EntityMaintainer.convertEntity, if_neg start, original, if_neg (by omega)]
    simp only [min_eq_left begins, made]
  · simp only [originalSentence_insertTrailing, originalSentence_insertPeriod, original₁]
    exact original
  · simp only [List.flatMap_append, filling₁.source_eq, filling₂.source_eq, filling₃.source_eq,
      List.append_nil, ← here.source, List.flatMap_singleton, Piece.source, own, preceding]
    exact (take_append_slice (by omega)).symm
  · simp only [List.forall_mem_append, List.forall_mem_singleton]
    refine ⟨⟨⟨⟨⟨here.bare, ?_⟩, bare_of_filling filling₁⟩, ?_⟩, bare_of_filling filling₂⟩,
      bare_of_filling filling₃⟩
    · exact fun c member => remaining.bare_slice member
    · exact fun c member => not_mem_brackets_of_mem_idText known member
  · simp only [List.forall_mem_append, List.forall_mem_singleton]
    exact ⟨⟨⟨⟨⟨here.usual, trivial⟩, filling₁.usual⟩, trivial⟩, filling₂.usual⟩, filling₃.usual⟩
  · simp only [Piece.placed_append, filling₁.placed, filling₂.placed, filling₃.placed, here.placed,
      Piece.Placed, Piece.Begins, filling₁.source_eq, List.flatMap_append, List.flatMap_singleton,
      Piece.source, List.append_nil, List.length_append, Nat.zero_add, true_and, and_true, reached]
    refine ⟨firstCharIndex_takePeriod, ?_⟩
    rw [own, EntityInfo.slice, List.length_take, List.length_drop]
    have ends := lastCharIndex_takePeriod_le within
    omega

/-- The loop of `createConvertedSentence` converts all entities that are left. -/
theorem Converting.convertEntities {sentence : List Char} {m : EntityMaintainer} {curIndex : ℕ}
    {ps : List Piece} {es : List EntityInfo} (here : Converting sentence m curIndex ps)
    (remaining : Remaining sentence curIndex es) : ∃ curIndex' m' ps',
      EntityMaintainer.convertEntities es curIndex m =
        (es.map (takePeriod sentence), some (curIndex', m')) ∧
      Converting sentence m' curIndex' ps' ∧ Remaining sentence curIndex' [] := by
  induction es generalizing m curIndex ps with
  | nil => exact ⟨curIndex, m, ps, rfl, here, remaining⟩
  | cons e es ih =>
    obtain ⟨m₁, ps₁, step, next⟩ := here.convertEntity remaining
    obtain ⟨curIndex', m', ps', loop, done⟩ := ih next remaining.tail
    refine ⟨curIndex', m', ps', ?_, done⟩
    simp only [EntityMaintainer.convertEntities, step, loop, List.map_cons]

/-- The sentence has been converted into the pieces. -/
structure ConvertedBy (sentence : List Char) (m : EntityMaintainer) (ps : List Piece) : Prop where
  original : m.originalSentence = sentence
  described : Described m ps
  source : sentence = ps.flatMap Piece.source
  bare : ∀ p ∈ ps, ∀ c ∈ p.text, c ∉ brackets
  usual : ∀ p ∈ ps, p.Usual
  placed : Piece.Placed 0 ps

/-- What follows the last entity is copied. -/
theorem Converting.finish {sentence : List Char} {m : EntityMaintainer} {curIndex : ℕ}
    {ps : List Piece} (here : Converting sentence m curIndex ps)
    (remaining : Remaining sentence curIndex []) :
    ConvertedBy sentence (m.append (m.originalSentence.drop curIndex))
      (ps ++ [.copied (sentence.drop curIndex)]) where
  original := here.original
  described := by
    rw [here.original]
    exact here.described.append _
  source := by
    rw [List.flatMap_append, ← here.source, List.flatMap_singleton]
    exact (List.take_append_drop _ _).symm
  bare := by
    rw [List.forall_mem_append, List.forall_mem_singleton]
    refine ⟨here.bare, fun c member bracket => ?_⟩
    obtain ⟨k, inside, same⟩ := List.mem_iff_getElem.mp member
    simp only [Piece.text, List.getElem_drop] at same
    simp only [Piece.text, List.length_drop] at inside
    have stands := List.getElem?_eq_some_iff.mpr ⟨by omega, same⟩
    obtain ⟨e, none_, -⟩ := remaining.covered _ c (Nat.le_add_right _ k) stands bracket
    exact List.not_mem_nil none_
  usual := List.forall_mem_append.mpr ⟨here.usual, List.forall_mem_singleton.mpr trivial⟩
  placed := Piece.placed_append.mpr ⟨here.placed, trivial, trivial⟩

theorem converting_start (sentence : List Char) :
    Converting sentence { originalSentence := sentence } 0 [] where
  original := rfl
  described := ⟨rfl, rfl, rfl, fun _ member => absurd member List.not_mem_nil, List.nodup_nil⟩
  source := rfl
  within := Nat.zero_le _
  bare := fun _ member => absurd member List.not_mem_nil
  usual := fun _ member => absurd member List.not_mem_nil
  placed := trivial

/-- A sentence is converted when the entities of the tagger are its own. -/
theorem exists_convertedBy {tagger : EntityTagger} {sentence : List Char}
    (own : Remaining sentence 0 (EntityTaggerBasic.tagEntities tagger sentence)) : ∃ m ps,
      convertSentence tagger sentence =
        ((EntityTaggerBasic.tagEntities tagger sentence).map (takePeriod sentence), some m) ∧
      ConvertedBy sentence m ps := by
  obtain ⟨curIndex, m, ps, loop, done, nothing⟩ := (converting_start sentence).convertEntities own
  refine ⟨_, _, ?_, done.finish nothing⟩
  rw [convertSentence, createConvertedSentence]
  cases tagged : EntityTaggerBasic.tagEntities tagger sentence with
  | nil =>
    rw [tagged] at loop
    obtain ⟨-, same⟩ := Prod.mk.inj loop
    obtain ⟨rfl, rfl⟩ := Prod.mk.inj (Option.some.inj same)
    rfl
  | cons e es =>
    rw [tagged] at loop
    simp only [List.isEmpty_cons, Bool.false_eq_true, if_false, loop, Option.map_some]

/-- A new tagger has only the entities of the sentence. -/
theorem remaining_new (sentence : List Char) :
    Remaining sentence 0 (EntityTaggerBasic.tagEntities [] sentence) where
  apart := EntityTaggerBasic.apart_tagEntities Math.apart_nil
  found e member :=
    ((EntityTaggerBasic.mem_tagEntities Math.apart_nil).2 e member).resolve_left List.not_mem_nil
  covered _ _ _ here bracket := EntityTaggerBasic.covered_tagEntities Math.apart_nil bracket here

/-- No bracket is left in the converted sentence. -/
theorem convertSentence_no_bracket (sentence : List Char) : ∃ es m,
    convertSentence [] sentence = (es, some m) ∧ ∀ c ∈ m.convertedSentence, c ∉ brackets := by
  obtain ⟨m, ps, run, converted⟩ := exists_convertedBy (remaining_new sentence)
  refine ⟨_, m, run, fun c member => ?_⟩
  rw [converted.described.text] at member
  obtain ⟨p, inside, member⟩ := List.mem_flatMap.mp member
  exact converted.bare p inside c member

end EntityMaintainer

end ThinkingUnderstanding
