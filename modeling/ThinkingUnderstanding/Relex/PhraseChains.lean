import ThinkingUnderstanding.Relex.PhraseText

/-!
# Phrases are read and written

The markup puts the elements of a phrase into the graph as a chain, and leaves all other features
as they are, except those that lead from a word to its phrase. What is written from the graph is
the phrase again, with the words of the sentence in the place of the words of the text.

## Main definitions

* `FeatureGraph.Changes` — the features that may be different
* `PhraseList.Chain` — the elements as they are in the graph
* `PhraseTree.printed` — what is written

## Main results

* `PhraseMarkup.markupElements_spec` — reading makes a chain
* `PhraseTree.elementsToString_spec` — writing follows it
* `PhraseTree.ofNode_markup` — what is read is written, with the words of the sentence
-/

namespace ThinkingUnderstanding

open Math Semantics

namespace FeatureGraph

/-- Nodes have been added, and only the allowed features are different. -/
structure Changes (allowed : ℕ → String → Prop) (g g' : FeatureGraph) : Prop where
  size : g.size ≤ g'.size
  keyed : ∀ q < g.size, g.kvPairs q ≠ none → g'.kvPairs q ≠ none
  feature : ∀ q < g.size, ∀ key, ¬ allowed q key → g'.feature q key = g.feature q key
  valued : ∀ q < g.size, ∀ value, (g.get q).content = .valued value →
    (g'.get q).content = .valued value

variable {g g' g'' : FeatureGraph} {allowed allowed' : ℕ → String → Prop} {this n : ℕ}
  {key : String}

/-- One change after another, the second of which may do more to new nodes. -/
theorem Changes.trans (first : Changes allowed g g') (second : Changes allowed' g' g'')
    (less : ∀ q < g.size, ∀ key, allowed' q key → allowed q key) : Changes allowed g g'' where
  size := first.size.trans second.size
  keyed q below own := second.keyed q (by have := first.size; omega) (first.keyed q below own)
  feature q below key free := by
    rw [second.feature q (by have := first.size; omega) key fun may => free (less q below key may),
      first.feature q below key free]
  valued q below value content :=
    second.valued q (by have := first.size; omega) value (first.valued q below value content)

theorem Changes.mono (changes : Changes allowed' g g')
    (less : ∀ q < g.size, ∀ key, allowed' q key → allowed q key) : Changes allowed g g' where
  size := changes.size
  keyed := changes.keyed
  feature q below key free := changes.feature q below key fun may => free (less q below key may)
  valued := changes.valued

theorem changes_assign {kv_pairs : InsertionMap String ℕ} (own : g.kvPairs this = some kv_pairs)
    (target : Option ℕ) :
    Changes (fun q k => q = this ∧ k = key) g (g.assign this kv_pairs key target) where
  size := by
    have dropped : ∀ (h : FeatureGraph) kv old, h.size ≤ (h.dropTarget this kv old).size := by
      intro h kv old
      cases old with
      | none => exact le_rfl
      | some old =>
        rw [dropTarget]
        split_ifs
        · exact le_rfl
        · exact h.size_le_size_modify ..
    have added : g.size ≤ (g.addTarget this target).size := by
      cases target with
      | none => exact le_rfl
      | some target => exact g.size_le_size_modify ..
    exact added.trans (((g.addTarget this target).size_le_size_modify this _).trans
      (dropped _ _ _))
  keyed q _ own' := by
    rw [kvPairs_assign]
    split_ifs
    · exact Option.some_ne_none _
    · exact own'
  feature q _ k free := by rw [feature_assign own, if_neg free]
  valued q _ value content := by
    rw [content_assign, if_neg, content]
    rintro rfl
    rw [kvPairs_eq_some_iff, content] at own
    cases own

/-- Only nodes have been added. -/
theorem changes_of_content (size : g.size ≤ g'.size)
    (same : ∀ q < g.size, (g'.get q).content = (g.get q).content) :
    Changes (fun _ _ => False) g g' where
  size := size
  keyed q below own := by rwa [kvPairs, same q below, ← kvPairs]
  feature q below key _ := by rw [feature_eq, feature_eq, same q below]
  valued q below value content := by rw [same q below, content]

theorem changes_alloc : Changes (fun _ _ => False) g (g.alloc {}) := by
  refine changes_of_content ?_ fun q _ => by rw [FeatureNode.get_alloc]
  rw [Arena.size_alloc]
  exact Nat.le_succ _

theorem content_putValue {value : Option String} : ((g.putValue n value).get this).content =
    if this = n then .valued value else (g.get this).content := by
  rw [putValue, Arena.get_modify]
  split_ifs <;> rfl

end FeatureGraph

namespace FeatureNode

open FeatureGraph

variable {g : FeatureGraph} {this target : ℕ} {key : String}

/-- What `add` does. -/
theorem add_spec (own : g.kvPairs this ≠ none) (present : this < g.size) (key : String) :
    ∃ g', (add this key).run g = .ok g.size g' ∧
      Changes (fun q k => q = this ∧ k = key) g g' ∧ g.size < g'.size ∧
      g'.feature this key = some g.size ∧ g'.kvPairs g.size = some InsertionMap.empty := by
  obtain ⟨kv_pairs, own⟩ := Option.ne_none_iff_exists'.mp own
  have own₁ : kvPairs (g.alloc {}) this = some kv_pairs := by rw [kvPairs_alloc, own]
  have step : Changes (fun q k => q = this ∧ k = key) (g.alloc {})
      (assign (g.alloc {}) this kv_pairs key (some g.size)) := changes_assign own₁ (some g.size)
  refine ⟨assign (g.alloc {}) this kv_pairs key (some g.size), ?_, ?_, ?_, ?_, ?_⟩
  · have asked : (isValued this).run g = .ok (g.kvPairs this).isNone g := rfl
    rw [add, EStateM.run_bind, asked, own]
    simp only [Option.isNone_some, Bool.false_eq_true, if_false]
    rw [EStateM.run_bind]
    change ((do
      setFeature this key (some g.size)
      pure g.size : FeatureProgram ℕ).run (g.alloc {})) = _
    rw [EStateM.run_bind, run_setFeature own₁]
    rfl
  · exact (changes_alloc.mono fun _ _ _ no => no.elim).trans step fun _ _ _ may => may
  · exact lt_of_lt_of_le (by rw [Arena.size_alloc]; omega) step.size
  · rw [feature_assign own₁, if_pos ⟨rfl, rfl⟩]
  · rw [kvPairs_assign, if_neg (by omega), kvPairs_alloc_size]

/-- What `set` does. -/
theorem set_spec (own : g.kvPairs this ≠ none) (key : String) (target : ℕ) :
    ∃ g', (setFeature this key (some target)).run g = .ok () g' ∧
      Changes (fun q k => q = this ∧ k = key) g g' ∧ g'.feature this key = some target := by
  obtain ⟨kv_pairs, own⟩ := Option.ne_none_iff_exists'.mp own
  exact ⟨_, run_setFeature own key _, changes_assign own _,
    by rw [feature_assign own, if_pos ⟨rfl, rfl⟩]⟩

/-- What `new FeatureNode(str)` does. -/
theorem newValue_spec (str : String) : ∃ g', (newValue str).run g = .ok g.size g' ∧
    Changes (fun _ _ => False) g g' ∧ g.size < g'.size ∧
    (g'.get g.size).content = .valued (some str) := by
  have own : kvPairs (g.alloc {}) g.size = some InsertionMap.empty := kvPairs_alloc_size
  have larger : g.size < ((putValue (g.alloc {}) g.size none).putValue g.size (some str)).size :=
    lt_of_lt_of_le (by rw [Arena.size_alloc]; omega)
      ((Arena.size_le_size_modify ..).trans (Arena.size_le_size_modify ..))
  refine ⟨(putValue (g.alloc {}) g.size none).putValue g.size (some str), ?_,
    changes_of_content larger.le fun q below => ?_, larger, ?_⟩
  · have empty : ¬ (InsertionMap.empty : InsertionMap String ℕ).size > 0 := Nat.lt_irrefl 0
    have valued : (isValued g.size).run (putValue (g.alloc {}) g.size none) =
        .ok true (putValue (g.alloc {}) g.size none) := by
      have none_ : (putValue (g.alloc {}) g.size none).kvPairs g.size = none := by
        rw [kvPairs, content_putValue, if_pos rfl]
      have asked : (isValued g.size).run (putValue (g.alloc {}) g.size none) =
          .ok ((putValue (g.alloc {}) g.size none).kvPairs g.size).isNone
            (putValue (g.alloc {}) g.size none) := rfl
      rw [asked, none_]
      rfl
    rw [newValue, EStateM.run_bind]
    change ((do
      forceValue g.size (some str)
      pure g.size : FeatureProgram ℕ).run (g.alloc {})) = _
    rw [EStateM.run_bind, forceValue, EStateM.run_bind]
    simp only [EStateM.run_get, own, if_neg empty]
    rw [EStateM.run_bind]
    have cleared : (modify fun h : FeatureGraph => h.putValue g.size none : FeatureProgram Unit).run
        (g.alloc {}) = .ok () (putValue (g.alloc {}) g.size none) := rfl
    rw [cleared]
    simp only []
    rw [setValue, EStateM.run_bind, valued]
    rfl
  · have apart : q ≠ g.size := by omega
    rw [content_putValue, if_neg apart, content_putValue, if_neg apart, get_alloc]
  · rw [content_putValue, if_pos rfl]

end FeatureNode

/-! ### Chains of elements -/

namespace PhraseList

open FeatureGraph

/-- The node of an element, with the word or the phrase to which it leads. -/
structure Element (g : FeatureGraph) (lo fn : ℕ) (word head : Option ℕ) : Prop where
  new : lo ≤ fn
  present : fn < g.size
  keyed : g.kvPairs fn ≠ none
  type : g.feature fn "phr-type" = none
  word : g.feature fn "phr-word" = word
  head : g.feature fn "phr-head" = head

/-- The first node of a phrase. -/
structure Head (g : FeatureGraph) (lo head : ℕ) (type : List Char) : Prop where
  new : lo ≤ head
  present : head < g.size
  keyed : g.kvPairs head ≠ none
  type : ∃ t, lo ≤ t ∧ t < g.size ∧ g.feature head "phr-type" = some t ∧
    (g.get t).content = .valued (some (String.ofList type))

/-- The elements are in the graph, from the word `k` of the sentence on, in nodes from `lo` on. -/
def Chain (words : List ℕ) (g : FeatureGraph) (lo : ℕ) : Option ℕ → ℕ → PhraseList → Prop
  | next, _, .nil => next = none
  | next, k, .word _ _ rest => ∃ fn wn, next = some fn ∧ words[k]? = some wn ∧
      Element g lo fn (some wn) none ∧ Chain words g lo (g.feature fn "phr-next") (k + 1) rest
  | next, k, .phrase _ type elements rest => ∃ fn head, next = some fn ∧
      Element g lo fn none (some head) ∧ Head g lo head type ∧
      Chain words g lo (g.feature head "phr-next") k elements ∧
      Chain words g lo (g.feature fn "phr-next") (k + elements.wordCount) rest

variable {g g' : FeatureGraph} {words : List ℕ} {lo lo' fn head k : ℕ} {next : Option ℕ}
  {type : List Char} {elements : PhraseList} {allowed : ℕ → String → Prop}

theorem Element.of_changes {word head : Option ℕ} (element : Element g lo fn word head)
    (changes : Changes allowed g g') (lower : lo' ≤ lo)
    (free : ∀ key, key ≠ "phr-next" → ¬ allowed fn key) : Element g' lo' fn word head where
  new := lower.trans element.new
  present := lt_of_lt_of_le element.present changes.size
  keyed := changes.keyed fn element.present element.keyed
  type := by rw [changes.feature fn element.present _ (free _ (by decide)), element.type]
  word := by rw [changes.feature fn element.present _ (free _ (by decide)), element.word]
  head := by rw [changes.feature fn element.present _ (free _ (by decide)), element.head]

theorem Head.of_changes (first : Head g lo head type) (changes : Changes allowed g g')
    (lower : lo' ≤ lo) (free : ∀ key, key ≠ "phr-next" → ¬ allowed head key) :
    Head g' lo' head type where
  new := lower.trans first.new
  present := lt_of_lt_of_le first.present changes.size
  keyed := changes.keyed head first.present first.keyed
  type := by
    obtain ⟨t, new, present, leads, value⟩ := first.type
    exact ⟨t, lower.trans new, lt_of_lt_of_le present changes.size,
      by rw [changes.feature head first.present _ (free _ (by decide)), leads],
      changes.valued t present _ value⟩

/-- A chain stays when its nodes do not change. -/
theorem Chain.of_changes (changes : Changes allowed g g') (lower : lo' ≤ lo)
    (free : ∀ q, lo ≤ q → ∀ key, ¬ allowed q key) (chain : Chain words g lo next k elements) :
    Chain words g' lo' next k elements := by
  induction elements generalizing next k with
  | nil => exact chain
  | word blank text rest ih =>
    obtain ⟨fn, wn, leads, spoken, element, behind⟩ := chain
    refine ⟨fn, wn, leads, spoken,
      element.of_changes changes lower fun key _ => free fn element.new key, ?_⟩
    rw [changes.feature fn element.present _ (free fn element.new _)]
    exact ih behind
  | phrase blank type elements rest ihElements ihRest =>
    obtain ⟨fn, head, leads, element, first, inside, behind⟩ := chain
    refine ⟨fn, head, leads, element.of_changes changes lower fun key _ => free fn element.new key,
      first.of_changes changes lower fun key _ => free head first.new key, ?_, ?_⟩
    · rw [changes.feature head first.present _ (free head first.new _)]
      exact ihElements inside
    · rw [changes.feature fn element.present _ (free fn element.new _)]
      exact ihRest behind

/-- How deep the recursion is. -/
def depth : PhraseList → ℕ
  | .nil => 1
  | .word _ _ next => next.depth + 1
  | .phrase _ _ elements next => max (elements.depth + 1) next.depth + 1

theorem depth_le_length {first : Bool} (proper : elements.Proper first) :
    elements.depth ≤ elements.text.length + 1 := by
  induction elements generalizing first with
  | nil => exact le_rfl
  | word blank text next ih =>
    obtain ⟨-, full, -, proper⟩ := proper
    have some_ := List.length_pos_of_ne_nil full
    have behind := ih proper
    simp only [depth, PhraseList.text, List.length_append]
    omega
  | phrase blank type elements next ihElements ihNext =>
    obtain ⟨-, -, proper, properNext⟩ := proper
    have inside := ihElements proper
    have behind := ihNext properNext
    simp only [depth, PhraseList.text, List.length_append, List.length_cons]
    omega

end PhraseList

/-! ### Reading -/

namespace PhraseMarkup

open FeatureGraph FeatureNode PhraseList

/-- The words of a sentence behind the left wall: nodes with features, and the word in each of
them that is written. -/
structure SentenceWords (g : FeatureGraph) (words : List ℕ) (orig : ℕ → Option String) : Prop where
  present : ∀ k w, 1 ≤ k → words[k]? = some w → w < g.size ∧ g.kvPairs w ≠ none
  spelled : ∀ k w, 1 ≤ k → words[k]? = some w → match orig k with
    | none => g.feature w "orig_str" = none
    | some spelling => ∃ o, o < g.size ∧ g.feature w "orig_str" = some o ∧
        (g.get o).content = .valued (some spelling)

/-- A node is one of the words behind the left wall. -/
def Spoken (words : List ℕ) (w : ℕ) : Prop := ∃ k, 1 ≤ k ∧ words[k]? = some w

/-- What the markup changes: a feature of one node, and the phrases of words. -/
def Marks (words : List ℕ) (this : ℕ) (name : String) (q : ℕ) (key : String) : Prop :=
  (q = this ∧ key = name) ∨ (Spoken words q ∧ key = "phr-head")

variable {g g' : FeatureGraph} {words : List ℕ} {orig : ℕ → Option String} {fn top head k : ℕ}
  {allowed : ℕ → String → Prop}

theorem SentenceWords.of_changes (sentence : SentenceWords g words orig)
    (changes : Changes allowed g g')
    (free : ∀ w, Spoken words w → ¬ allowed w "orig_str") : SentenceWords g' words orig where
  present k w behind spoken := by
    obtain ⟨below, own⟩ := sentence.present k w behind spoken
    exact ⟨lt_of_lt_of_le below changes.size, changes.keyed w below own⟩
  spelled k w behind spoken := by
    have below := (sentence.present k w behind spoken).1
    have word := sentence.spelled k w behind spoken
    have same := changes.feature w below "orig_str" (free w ⟨k, behind, spoken⟩)
    cases written : orig k with
    | none =>
      rw [written] at word
      exact same.trans word
    | some text =>
      rw [written] at word
      obtain ⟨o, present, leads, value⟩ := word
      exact ⟨o, lt_of_lt_of_le present changes.size, same.trans leads,
        changes.valued o present _ value⟩

theorem SentenceWords.lt_size (sentence : SentenceWords g words orig) {w : ℕ}
    (spoken : Spoken words w) : w < g.size := by
  obtain ⟨k, behind, spoken⟩ := spoken
  exact (sentence.present k w behind spoken).1

theorem SentenceWords.not_spoken_size (sentence : SentenceWords g words orig) :
    ¬ Spoken words g.size :=
  fun spoken => (sentence.lt_size spoken).false

theorem SentenceWords.of_marks {name : String} (sentence : SentenceWords g words orig)
    (changes : Changes (Marks words fn name) g g') (other : name ≠ "orig_str") :
    SentenceWords g' words orig :=
  sentence.of_changes changes fun w _ => by
    rintro (⟨-, key⟩ | ⟨-, key⟩)
    · exact other key.symm
    · exact absurd key (by decide)

/-- A node that is no word has its features, apart from the one that is marked. -/
theorem feature_of_marks {name key : String} {n : ℕ} (changes : Changes (Marks words fn name) g g')
    (below : n < g.size) (silent : ¬ Spoken words n) (other : n = fn → key ≠ name) :
    g'.feature n key = g.feature n key := by
  refine changes.feature n below key ?_
  rintro (⟨here, same⟩ | ⟨spoken, -⟩)
  · exact other here same
  · exact silent spoken

/-- Of the nodes that were there, a marked new node changes the words only. -/
theorem Marks.of_new {this q : ℕ} {name name' key : String} (marks : Marks words this name q key)
    (below : q < this) : Marks words fn name' q key := by
  rcases marks with ⟨here, -⟩ | spoken
  · exact absurd here below.ne
  · exact Or.inr spoken

/-- Nodes behind the one that is marked stay. -/
theorem SentenceWords.not_marks (sentence : SentenceWords g words orig) {q : ℕ} {name key : String}
    (beyond : g.size < q) : ¬ Marks words g.size name q key := by
  rintro (⟨same, -⟩ | ⟨spoken, -⟩)
  · exact beyond.ne' same
  · exact beyond.not_gt (sentence.lt_size spoken)

/-- What reading a list of elements does, when they stand in the text at `idx`. -/
def Reads (words : List ℕ) (elements : PhraseList) : Prop :=
  ∀ {first : Bool}, elements.Proper first → ∀ {depth : ℕ}, elements.depth ≤ depth →
  ∀ {g : FeatureGraph} {orig : ℕ → Option String}, SentenceWords g words orig →
  ∀ (top head : ℕ) {fn : ℕ}, fn < g.size → g.kvPairs fn ≠ none → ¬ Spoken words fn →
    g.feature fn "phr-next" = none →
  ∀ {k : ℕ}, 1 ≤ k → k + elements.wordCount ≤ words.length →
  ∀ {str tail : List Char} {idx : ℕ}, 1 ≤ idx → (∀ c ∈ tail, c ∈ blanks) →
    (elements = .nil ∧ str.length ≤ idx ∨
      elements ≠ .nil ∧ str.drop idx = elements.body ++ ')' :: tail) →
    ∃ g', (markupElements words depth top head fn str idx k).run g =
        .ok (k + elements.wordCount) g' ∧
      Changes (Marks words fn "phr-next") g g' ∧
      Chain words g' g.size (g'.feature fn "phr-next") k elements

theorem feature_of_empty {key : String} (empty : g.kvPairs fn = some InsertionMap.empty) :
    g.feature fn key = none := by
  rw [feature, empty]
  rfl

theorem setRoot_spec (own : g.kvPairs head ≠ none) (root : Option ℕ) :
    ∃ g', (setRoot head root).run g = .ok () g' ∧
      Changes (fun q k => q = head ∧ k = "phr-root") g g' := by
  cases root with
  | none => exact ⟨g, rfl, (changes_of_content le_rfl fun _ _ => rfl).mono fun _ _ _ no => no.elim⟩
  | some root =>
    obtain ⟨g', run, changes, -⟩ := set_spec own "phr-root" root
    exact ⟨g', run, changes⟩

/-- The type of a phrase ends at the first white space. -/
theorem strpbrk_phraseText {type : List Char} {elements : PhraseList} (bare : Bare type)
    (proper : elements.Proper true) (tail : List Char) :
    strpbrk (phraseText type elements ++ tail) 0 [' ', '\t', '\r', '\n'] = type.length + 1 ∧
      ((phraseText type elements ++ tail).take (type.length + 1)).drop 1 = type ∧
      (phraseText type elements ++ tail).drop (type.length + 2) = elements.body ++ ')' :: tail := by
  obtain ⟨c, white, first⟩ := exists_text_of_proper proper
  have whole : phraseText type elements ++ tail =
      ('(' :: type) ++ c :: (elements.body ++ ')' :: tail) := by
    rw [phraseText, first]
    simp
  refine ⟨?_, ?_, ?_⟩
  · have ends : strpbrk (phraseText type elements ++ tail) 0 [' ', '\t', '\r', '\n'] =
        0 + ('(' :: type).length := strpbrk_eq whole (by simp) white fun d member here => by
      rcases List.mem_cons.mp here with rfl | inside
      · exact absurd member (by decide +kernel)
      · exact (bare d inside).1 member
    rw [ends, List.length_cons, Nat.zero_add]
  · rw [whole, List.take_left' (by simp)]
    rfl
  · rw [whole, ← List.drop_drop (i := 1) (j := type.length + 1), List.drop_left' (by simp)]
    rfl

/-- Reading a phrase, when its elements are read. -/
theorem doMarkup_of_reads {elements : PhraseList} (reads : Reads words elements)
    (proper : elements.Proper true) {depth : ℕ} (deep : elements.depth ≤ depth)
    (sentence : SentenceWords g words orig) (present : top < g.size) (own : g.kvPairs top ≠ none)
    (free : ¬ Spoken words top) (root : Option ℕ) (behind : 1 ≤ k)
    (enough : k + elements.wordCount ≤ words.length) {type tail : List Char} (bare : Bare type)
    (white : ∀ c ∈ tail, c ∈ blanks) :
    ∃ g', (doMarkup words (depth + 1) top root (phraseText type elements ++ tail) k).run g =
        .ok (k + elements.wordCount) g' ∧
      Changes (Marks words top "phr-head") g g' ∧
      ∃ head, g'.feature top "phr-head" = some head ∧ Head g' g.size head type ∧
        Chain words g' g.size (g'.feature head "phr-next") k elements := by
  obtain ⟨ends, type_, rest⟩ := strpbrk_phraseText bare proper tail
  obtain ⟨g₁, run₁, changes₁, size₁, leads₁, empty₁⟩ := add_spec own present "phr-head"
  have own₁ : g₁.kvPairs g.size ≠ none := by
    rw [empty₁]
    exact Option.some_ne_none _
  obtain ⟨g₂, run₂, changes₂⟩ := setRoot_spec own₁ root
  obtain ⟨g₃, run₃, changes₃, size₃, value₃⟩ := newValue_spec (g := g₂) (String.ofList type)
  have own₃ : g₃.kvPairs g.size ≠ none :=
    changes₃.keyed _ (by have := changes₂.size; omega) (changes₂.keyed _ size₁ own₁)
  obtain ⟨g₄, run₄, changes₄, leads₄⟩ := set_spec own₃ "phr-type" g₂.size
  have size₂ := changes₂.size
  have size₄ := changes₄.size
  -- what the four steps have done to the nodes that were there
  have before : Changes (Marks words top "phr-head") g g₄ :=
    (((changes₁.mono fun _ _ _ may => Or.inl may).trans changes₂
      fun _ below _ may => absurd may.1 below.ne).trans changes₃
      fun _ _ _ no => no.elim).trans changes₄ fun _ below _ may => absurd may.1 below.ne
  have full : elements ≠ .nil := by
    rintro rfl
    cases proper
  have new := sentence.not_spoken_size
  have next₄ : g₄.feature g.size "phr-next" = none := by
    rw [changes₄.feature _ (by omega) _ fun may => absurd may.2 (by decide),
      changes₃.feature _ (by omega) _ id,
      changes₂.feature _ size₁ _ fun may => absurd may.2 (by decide), feature_of_empty empty₁]
  have type₄ : (g₄.get g₂.size).content = .valued (some (String.ofList type)) :=
    changes₄.valued _ size₃ _ value₃
  obtain ⟨g₅, run₅, changes₅, chain⟩ := reads proper deep (sentence.of_marks before (by decide))
    top g.size (by omega) (changes₄.keyed _ (by omega) own₃) new next₄ behind enough (by omega)
    white (Or.inr ⟨full, rest⟩)
  have apart : top ≠ g.size := present.ne
  have size₅ := changes₅.size
  refine ⟨g₅, ?_, before.trans changes₅ fun q below key may => may.of_new below, g.size, ?_, ?_, ?_⟩
  · have first : (phraseText type elements ++ tail).head? = some '(' := rfl
    rw [doMarkup, first]
    simp only [ne_eq, not_true_eq_false, if_false]
    rw [EStateM.run_bind, run₁]
    simp only []
    rw [EStateM.run_bind, run₂, ends, type_]
    simp only []
    rw [EStateM.run_bind, run₃]
    simp only []
    rw [EStateM.run_bind, run₄]
    exact run₅
  · rw [feature_of_marks changes₅ (by omega) free fun here => absurd here apart,
      changes₄.feature top (by omega) _ fun may => apart may.1,
      changes₃.feature top (by omega) _ id,
      changes₂.feature top (by omega) _ fun may => apart may.1, leads₁]
  · refine ⟨le_rfl, by omega, changes₅.keyed _ (by omega) (changes₄.keyed _ (by omega) own₃),
      g₂.size, by omega, by omega, ?_, changes₅.valued _ (by omega) _ type₄⟩
    rw [feature_of_marks changes₅ (by omega) new fun _ => by decide, leads₄]
  · exact chain.of_changes (changes_of_content le_rfl fun _ _ => rfl) (by omega) fun _ _ _ no => no

/-- Reading no element. -/
theorem reads_nil : Reads words .nil := by
  intro first _ depth deep g orig _ top head fn _ _ _ next k _ _ str tail idx _ _ split
  obtain ⟨depth, rfl⟩ : ∃ d, depth = d + 1 := Nat.exists_eq_add_one.mpr deep
  obtain ⟨-, ended⟩ : PhraseList.nil = .nil ∧ str.length ≤ idx := by
    rcases split with ended | ⟨full, -⟩
    · exact ended
    · exact absurd rfl full
  refine ⟨g, ?_, (changes_of_content le_rfl fun _ _ => rfl).mono fun _ _ _ no => no.elim, next⟩
  rw [markupElements, List.getElem?_eq_none ended]
  rfl

/-- What follows an element: the end of the phrase, or white space and another element. -/
theorem behind_element {next : PhraseList} (proper : next.Proper false) (tail : List Char) :
    (next = .nil ∧ next.text ++ ')' :: tail = ')' :: tail) ∨
    (next ≠ .nil ∧ ∃ d blank c rest, d ∈ blanks ∧ (∀ c ∈ blank, c ∈ blanks) ∧
      next.text = d :: (blank ++ next.body) ∧ next.body = c :: rest ∧ c ∉ blanks) := by
  obtain ⟨blank, white, text, rfl | ⟨c, rest, full, body, other⟩⟩ := exists_blank_of_proper proper
  · exact Or.inl ⟨rfl, rfl⟩
  · obtain ⟨d, blank, rfl⟩ := List.exists_cons_of_ne_nil full
    rw [List.forall_mem_cons] at white
    refine Or.inr ⟨?_, d, blank, c, rest, white.1, white.2, text, body, other⟩
    rintro rfl
    cases body

/-- After a word the markup returns, or goes on behind the white space. -/
theorem exists_run_behind_word {text : List Char} {next : PhraseList} (reads : Reads words next)
    (bare : Bare text) (proper : next.Proper false) {depth : ℕ} (deep : next.depth ≤ depth)
    (sentence : SentenceWords g words orig) (top head : ℕ) (present : fn < g.size)
    (own : g.kvPairs fn ≠ none) (free : ¬ Spoken words fn)
    (none_ : g.feature fn "phr-next" = none) (behind : 1 ≤ k)
    (enough : k + next.wordCount ≤ words.length) {str tail : List Char} {idx : ℕ} (late : 1 ≤ idx)
    (white : ∀ c ∈ tail, c ∈ blanks) (split : str.drop idx = text ++ (next.text ++ ')' :: tail)) :
    ∃ g', (if strpbrk str idx [' ', '\r', '\n', '\t', ')'] = strpbrk str idx [')'] then return k
        else markupElements words depth top head fn str
          (strspn str (strpbrk str idx [' ', '\r', '\n', '\t', ')']) [' ', '\r', '\n', '\t']) k :
        FeatureProgram ℕ).run g = .ok (k + next.wordCount) g' ∧
      Changes (Marks words fn "phr-next") g g' ∧
      Chain words g' g.size (g'.feature fn "phr-next") k next := by
  have listed : ∀ c, c ∈ blanks ↔ c ∈ [' ', '\r', '\n', '\t'] := fun c => by
    simp only [blanks, List.mem_cons, List.not_mem_nil]
    tauto
  have absent : ∀ d ∈ [' ', '\r', '\n', '\t', ')'], d ∉ text := by
    intro d member inside
    obtain ⟨dark, -, open_⟩ := bare d inside
    rcases List.mem_append.mp (show d ∈ [' ', '\r', '\n', '\t'] ++ [')'] from member) with
      space | paren
    · exact dark ((listed d).mpr space)
    · exact open_ (List.mem_singleton.mp paren)
  have ends : ∀ c rest, next.text ++ ')' :: tail = c :: rest → c ∈ [' ', '\r', '\n', '\t', ')'] →
      strpbrk str idx [' ', '\r', '\n', '\t', ')'] = idx + text.length := fun c rest same member =>
    strpbrk_eq (by rw [split, same]) (by omega) member absent
  rcases behind_element proper tail with
    ⟨rfl, text_⟩ | ⟨full, d, blank, c, rest, space, white', text_, body, other⟩
  · have closes : strpbrk str idx [')'] = idx + text.length :=
      strpbrk_eq (by rw [split, text_]) (by omega) (List.mem_singleton.mpr rfl) fun d member =>
        absent d (by rw [List.mem_singleton.mp member]; simp)
    rw [ends _ _ text_ (by simp), closes, if_pos rfl]
    exact ⟨g, rfl, (changes_of_content le_rfl fun _ _ => rfl).mono fun _ _ _ no => no.elim, none_⟩
  · have split' : str.drop idx = text ++ d :: (blank ++ (next.body ++ ')' :: tail)) := by
      rw [split, text_]
      simp
    have word := ends d (blank ++ (next.body ++ ')' :: tail)) (by rw [text_]; simp)
      (List.mem_append_left [')'] ((listed d).mp space))
    have notParen : d ≠ ')' := by
      rintro rfl
      exact absurd space (by decide +kernel)
    have goes := strpbrk_ne split' notParen
    rw [word, if_neg goes.symm]
    have later : str.drop (idx + text.length) = d :: (blank ++ (next.body ++ ')' :: tail)) := by
      rw [← List.drop_drop, split', List.drop_left]
    have skipped : strspn str (idx + text.length) [' ', '\r', '\n', '\t'] =
        idx + text.length + (d :: blank).length := by
      refine strspn_eq (by rw [later, body]; rfl) ?_ fun member => other ((listed c).mpr member)
      intro e member
      rcases List.mem_cons.mp member with rfl | member
      · exact (listed e).mp space
      · exact (listed e).mp (white' e member)
    rw [skipped]
    refine reads proper deep sentence top head present own free none_ behind enough (by omega) white
      (Or.inr ⟨full, ?_⟩)
    rw [← List.drop_drop, later, ← List.cons_append, List.drop_left]

/-- The node of a word is put at the end of the chain. -/
theorem exists_run_wordElement (sentence : SentenceWords g words orig) (present : fn < g.size)
    (own : g.kvPairs fn ≠ none) (free : ¬ Spoken words fn) (head : ℕ) (behind : 1 ≤ k) {wn : ℕ}
    (spoken : words[k]? = some wn) :
    ∃ g₁ g₂ g', (add fn "phr-next").run g = .ok g.size g₁ ∧
      (setFeature g.size "phr-word" (some wn)).run g₁ = .ok () g₂ ∧
      (setFeature wn "phr-head" (some head)).run g₂ = .ok () g' ∧
      Changes (Marks words fn "phr-next") g g' ∧ g'.feature fn "phr-next" = some g.size ∧
      Element g' g.size g.size (some wn) none ∧ g'.feature g.size "phr-next" = none := by
  obtain ⟨below, ownWord⟩ := sentence.present k wn behind spoken
  obtain ⟨g₁, run₁, changes₁, size₁, leads₁, empty₁⟩ := add_spec own present "phr-next"
  have own₁ : g₁.kvPairs g.size ≠ none := by
    rw [empty₁]
    exact Option.some_ne_none _
  obtain ⟨g₂, run₂, changes₂, leads₂⟩ := set_spec own₁ "phr-word" wn
  have size₂ := changes₂.size
  have ownWord₂ : g₂.kvPairs wn ≠ none :=
    changes₂.keyed wn (by omega) (changes₁.keyed wn below ownWord)
  obtain ⟨g₃, run₃, changes₃, -⟩ := set_spec ownWord₂ "phr-head" head
  have size₃ := changes₃.size
  have apart : g.size ≠ wn := below.ne'
  have empty₃ : ∀ key, key ≠ "phr-word" → g₃.feature g.size key = none := by
    intro key other
    rw [changes₃.feature _ (by omega) _ fun may => apart may.1,
      changes₂.feature _ size₁ _ fun may => other may.2, feature_of_empty empty₁]
  refine ⟨g₁, g₂, g₃, run₁, run₂, run₃, ?_, ?_, ?_, empty₃ _ (by decide)⟩
  · exact ((changes₁.mono fun _ _ _ may => Or.inl may).trans changes₂
      fun _ below _ may => absurd may.1 below.ne).trans changes₃
      fun _ _ _ may => Or.inr ⟨may.1 ▸ ⟨k, behind, spoken⟩, may.2⟩
  · rw [changes₃.feature fn (by omega) _ fun may => free (may.1 ▸ ⟨k, behind, spoken⟩),
      changes₂.feature fn (by omega) _ fun may => present.ne may.1, leads₁]
  · refine ⟨le_rfl, by omega, changes₃.keyed _ (by omega) (changes₂.keyed _ size₁ own₁),
      empty₃ _ (by decide), ?_, empty₃ _ (by decide)⟩
    rw [changes₃.feature _ (by omega) _ fun may => apart may.1, leads₂]

/-- Reading a word, and what comes after it. -/
theorem reads_word {blank text : List Char} {next : PhraseList} (reads : Reads words next) :
    Reads words (.word blank text next) := by
  intro first proper depth deep g orig sentence top head fn present own free none_ k behind enough
    str tail idx late white split
  obtain ⟨-, full, bare, proper⟩ := proper
  obtain ⟨depth, rfl⟩ : ∃ d, depth = d + 1 :=
    Nat.exists_eq_add_one.mpr (lt_of_lt_of_le (Nat.succ_pos _) deep)
  rw [PhraseList.depth] at deep
  rw [wordCount] at enough
  have split : str.drop idx = text ++ (next.text ++ ')' :: tail) := by
    rcases split with ⟨no, -⟩ | ⟨-, split⟩
    · cases no
    · rw [split, body, List.append_assoc]
  obtain ⟨c, rest, start⟩ := List.exists_cons_of_ne_nil full
  have here : str[idx]? = some c := by
    rw [← List.head?_drop, split, start]
    rfl
  have notParen : c ≠ '(' := (bare c (start ▸ List.mem_cons_self)).2.1
  obtain ⟨wn, spoken⟩ : ∃ wn, words[k]? = some wn := ⟨_, List.getElem?_eq_getElem (by omega)⟩
  have new := sentence.not_spoken_size
  obtain ⟨g₁, g₂, g₃, run₁, run₂, run₃, marks, leads, element, last⟩ :=
    exists_run_wordElement sentence present own free head behind spoken
  obtain ⟨g', run, changes, chain⟩ := exists_run_behind_word reads bare proper
    (by omega : next.depth ≤ depth) (sentence.of_marks marks (by decide)) top head element.present
    element.keyed new last (by omega) (by omega : k + 1 + next.wordCount ≤ words.length) late white
    split
  have below : fn < g₃.size := lt_of_lt_of_le present marks.size
  refine ⟨g', ?_, marks.trans changes fun q below key may => may.of_new below, g.size, wn, ?_,
    spoken, ?_, ?_⟩
  · rw [markupElements, here]
    simp only [if_neg notParen, spoken]
    rw [EStateM.run_bind, run₁]
    simp only []
    rw [EStateM.run_bind, run₂]
    simp only []
    rw [EStateM.run_bind, run₃]
    simp only []
    rw [run, wordCount]
    congr 1
    omega
  · rw [feature_of_marks changes below free fun here => absurd here present.ne, leads]
  · refine element.of_changes changes le_rfl fun key other => ?_
    rintro (⟨-, same⟩ | ⟨spoken, -⟩)
    · exact other same
    · exact new spoken
  · exact chain.of_changes (changes_of_content le_rfl fun _ _ => rfl) marks.size fun _ _ _ no => no

/-- Behind a phrase the text ends, or the next element is found. -/
theorem split_behind_phrase {type : List Char} {elements next : PhraseList}
    (proper : next.Proper false) {str tail : List Char} {idx : ℕ} (white : ∀ c ∈ tail, c ∈ blanks)
    (split : str.drop idx = phraseText type elements ++ (next.text ++ ')' :: tail)) :
    let idx' := strspn str (idx + ((phraseText type elements).length + 1)) [' ', '\r', '\n', '\t']
    1 ≤ idx' ∧ (next = .nil ∧ str.length ≤ idx' ∨
      next ≠ .nil ∧ str.drop idx' = next.body ++ ')' :: tail) := by
  have listed : ∀ c, c ∈ blanks ↔ c ∈ [' ', '\r', '\n', '\t'] := fun c => by
    simp only [blanks, List.mem_cons, List.not_mem_nil]
    tauto
  have positive : 1 ≤ str.length := by
    have length := congrArg List.length split
    rw [List.length_drop, List.length_append, length_phraseText] at length
    omega
  have after : ∀ c rest, next.text ++ ')' :: tail = c :: rest →
      str.drop (idx + ((phraseText type elements).length + 1)) = rest := by
    intro c rest same
    rw [← List.drop_drop, ← List.drop_drop, split, List.drop_left, same]
    rfl
  intro idx'
  rcases behind_element proper tail with
    ⟨rfl, text⟩ | ⟨full, d, blank, c, rest, -, white', text, body, other⟩
  · have ended : idx' = str.length := strspn_end fun c member => by
      rw [after _ _ text] at member
      exact (listed c).mp (white c member)
    exact ⟨by omega, Or.inl ⟨rfl, by omega⟩⟩
  · have rest' := after d (blank ++ (next.body ++ ')' :: tail)) (by rw [text]; simp)
    have skipped : idx' = idx + ((phraseText type elements).length + 1) + blank.length := by
      refine strspn_eq (by rw [rest', body]; rfl) (fun e member => ?_) fun member =>
        other ((listed c).mpr member)
      exact (listed e).mp (white' e member)
    refine ⟨by omega, Or.inr ⟨full, ?_⟩⟩
    rw [skipped, ← List.drop_drop, rest', List.drop_left]

/-- A phrase in the text is cut out up to its closing parenthesis. -/
theorem phrase_cut {type tail : List Char} {elements : PhraseList} (bare : Bare type)
    (proper : elements.Proper true) {str : List Char} {idx : ℕ}
    (split : str.drop idx = phraseText type elements ++ tail) :
    str[idx]? = some '(' ∧ closer str idx + 1 ≤ str.length ∧
      (str.take (closer str idx + 1)).drop idx = phraseText type elements := by
  have closes := closer_phrase bare proper split
  have length := congrArg List.length split
  rw [List.length_drop, List.length_append] at length
  have some_ := length_phraseText type elements
  refine ⟨?_, by omega, ?_⟩
  · rw [← List.head?_drop, split]
    rfl
  · rw [closes, List.drop_take, split, Nat.add_sub_cancel_left, List.take_left]

/-- The node of a phrase is put at the end of the chain, and the phrase is read. -/
theorem exists_run_phraseElement {elements : PhraseList} (reads : Reads words elements)
    (proper : elements.Proper true) {depth : ℕ} (deep : elements.depth ≤ depth)
    (sentence : SentenceWords g words orig) (present : fn < g.size) (own : g.kvPairs fn ≠ none)
    (free : ¬ Spoken words fn) (root : Option ℕ) (behind : 1 ≤ k)
    (enough : k + elements.wordCount ≤ words.length) {type : List Char} (bare : Bare type) :
    ∃ g₁ g', (add fn "phr-next").run g = .ok g.size g₁ ∧
      (doMarkup words (depth + 1) g.size root (phraseText type elements) k).run g₁ =
        .ok (k + elements.wordCount) g' ∧
      Changes (Marks words fn "phr-next") g g' ∧ g'.feature fn "phr-next" = some g.size ∧
      g'.feature g.size "phr-next" = none ∧
      ∃ head, Element g' g.size g.size none (some head) ∧ Head g' (g.size + 1) head type ∧
        Chain words g' (g.size + 1) (g'.feature head "phr-next") k elements := by
  obtain ⟨g₁, run₁, changes₁, size₁, leads₁, empty₁⟩ := add_spec own present "phr-next"
  have own₁ : g₁.kvPairs g.size ≠ none := by
    rw [empty₁]
    exact Option.some_ne_none _
  have marks₁ : Changes (Marks words fn "phr-next") g g₁ :=
    changes₁.mono fun _ _ _ may => Or.inl may
  have new := sentence.not_spoken_size
  obtain ⟨g', run, changes, head, leads, first, chain⟩ := doMarkup_of_reads reads proper deep
    (sentence.of_marks marks₁ (by decide)) size₁ own₁ new root behind enough bare
    (fun c member => absurd member List.not_mem_nil : ∀ c ∈ [], c ∈ blanks)
  rw [List.append_nil] at run
  have empty : ∀ key, key ≠ "phr-head" → g'.feature g.size key = none := fun key other => by
    rw [feature_of_marks changes size₁ new fun _ => other, feature_of_empty empty₁]
  have size := changes.size
  have same : Changes (fun _ _ => False) g' g' := changes_of_content le_rfl fun _ _ => rfl
  refine ⟨g₁, g', run₁, run, marks₁.trans changes fun q below key may => may.of_new below, ?_,
    empty _ (by decide), head, ?_, ?_, ?_⟩
  · rw [feature_of_marks changes (by omega) free fun here => absurd here present.ne, leads₁]
  · exact ⟨le_rfl, by omega, changes.keyed _ size₁ own₁, empty _ (by decide), empty _ (by decide),
      leads⟩
  · exact first.of_changes same size₁ fun _ _ no => no
  · exact chain.of_changes same size₁ fun _ _ _ no => no

/-- Reading a phrase, and what comes after it. -/
theorem reads_phrase {blank type : List Char} {elements next : PhraseList}
    (readsElements : Reads words elements) (reads : Reads words next) :
    Reads words (.phrase blank type elements next) := by
  intro first proper depth deep g orig sentence top head fn present own free none_ k behind enough
    str tail idx late white split
  obtain ⟨-, bare, properElements, proper⟩ := proper
  obtain ⟨depth, rfl⟩ : ∃ d, depth = d + 1 :=
    Nat.exists_eq_add_one.mpr (lt_of_lt_of_le (Nat.succ_pos _) deep)
  rw [PhraseList.depth] at deep
  obtain ⟨depth, rfl⟩ : ∃ d, depth = d + 1 := Nat.exists_eq_add_one.mpr (by omega)
  rw [wordCount] at enough
  have split : str.drop idx = phraseText type elements ++ (next.text ++ ')' :: tail) := by
    rcases split with ⟨no, -⟩ | ⟨-, split⟩
    · cases no
    · rw [split, body, phraseText]
      simp
  obtain ⟨here, closed, subphrase⟩ := phrase_cut bare properElements split
  obtain ⟨late', split'⟩ := split_behind_phrase proper white split
  have new := sentence.not_spoken_size
  obtain ⟨g₁, g₂, run₁, run₂, marks, leads, last, head', element, first', inside⟩ :=
    exists_run_phraseElement readsElements properElements (by omega : elements.depth ≤ depth)
      sentence present own free (some top) behind (by omega) bare
  obtain ⟨g₃, run₃, changes, behind'⟩ := reads proper (by omega : next.depth ≤ depth + 1)
    (sentence.of_marks marks (by decide)) top head element.present element.keyed new last
    (by omega : 1 ≤ k + elements.wordCount) (by omega) late' white split'
  have below : fn < g₂.size := lt_of_lt_of_le present marks.size
  have beyond : ∀ q, g.size + 1 ≤ q → ∀ key, ¬ Marks words g.size "phr-next" q key :=
    fun q later key => sentence.not_marks later
  refine ⟨g₃, ?_, marks.trans changes fun q below key may => may.of_new below, g.size, head',
    ?_, ?_,
    ?_, ?_, ?_⟩
  · rw [markupElements, here]
    simp only [if_true]
    rw [if_neg (by omega), EStateM.run_bind, run₁, subphrase]
    simp only []
    rw [EStateM.run_bind, run₂]
    simp only []
    rw [run₃, wordCount]
    congr 1
    omega
  · rw [feature_of_marks changes below free fun here => absurd here present.ne, leads]
  · refine element.of_changes changes le_rfl fun key other => ?_
    rintro (⟨-, same⟩ | ⟨spoken, -⟩)
    · exact other same
    · exact new spoken
  · exact first'.of_changes changes (Nat.le_succ _) fun key _ => beyond head' first'.new key
  · rw [changes.feature head' first'.present _ (beyond head' first'.new _)]
    exact inside.of_changes changes (Nat.le_succ _) beyond
  · exact behind'.of_changes (changes_of_content le_rfl fun _ _ => rfl) marks.size
      fun _ _ _ no => no

/-- Reading elements makes a chain. -/
theorem markupElements_spec (words : List ℕ) (elements : PhraseList) : Reads words elements := by
  induction elements with
  | nil => exact reads_nil
  | word blank text next ih => exact reads_word ih
  | phrase blank type elements next ihElements ihNext => exact reads_phrase ihElements ihNext

end PhraseMarkup

/-! ### Writing -/

namespace PhraseTree

open FeatureGraph FeatureNode PhraseList PhraseMarkup

variable {g : FeatureGraph} {words : List ℕ} {orig : ℕ → Option String} {lo fn left k : ℕ}
  {next : Option ℕ}

theorem run_getFeature_of_keyed (own : g.kvPairs fn ≠ none) (key : String) :
    (getFeature fn key).run g = .ok (g.feature fn key) g := by
  obtain ⟨kv_pairs, own⟩ := Option.ne_none_iff_exists'.mp own
  rw [run_getFeature own, feature, own]
  rfl

theorem run_getValue {value : Option String} (content : (g.get fn).content = .valued value) :
    (getValue fn).run g = .ok value g := by
  rw [getValue, EStateM.run_bind]
  simp only [EStateM.run_get, content]
  rfl

/-- Writing a phrase, when its elements are written. -/
theorem run_toString_of_elements {head depth : ℕ} {type : List Char} {str text : String}
    (first : Head g lo head type)
    (elements : ∀ str, (elementsToString depth (g.feature head "phr-next") str).run g =
      .ok (str ++ text) g) :
    (_toString (depth + 1) head str).run g =
      .ok (str ++ ("(" ++ String.ofList type ++ text ++ ")")) g := by
  obtain ⟨t, -, -, leads, value⟩ := first.type
  rw [_toString, EStateM.run_bind, run_getFeature_of_keyed first.keyed, leads]
  simp only []
  rw [EStateM.run_bind, run_getValue value]
  simp only []
  rw [EStateM.run_bind, run_getFeature_of_keyed first.keyed]
  simp only []
  rw [EStateM.run_bind, elements]
  simp only [written, Option.getD_some, String.append_assoc]
  rfl

theorem run_typeToString (own : g.kvPairs fn ≠ none) (none_ : g.feature fn "phr-type" = none)
    (str : String) : (typeToString fn str).run g = .ok str g := by
  rw [typeToString, EStateM.run_bind, run_getFeature_of_keyed own, none_]
  rfl

theorem run_wordToString_of_phrase (own : g.kvPairs fn ≠ none)
    (none_ : g.feature fn "phr-word" = none) (str : String) :
    (wordToString fn str).run g = .ok str g := by
  rw [wordToString, EStateM.run_bind, run_getFeature_of_keyed own, none_]
  rfl

/-- What is written for a word. -/
def spelled (spelling : Option String) : String := spelling.elim "" fun word => " " ++ braced word

/-- What is written for a list of elements, the first word of which is the word `k`. -/
def printed (orig : ℕ → Option String) : ℕ → PhraseList → String
  | _, .nil => ""
  | k, .word _ _ next => spelled (orig k) ++ printed orig (k + 1) next
  | k, .phrase _ type elements next =>
      " " ++ ("(" ++ String.ofList type ++ printed orig k elements ++ ")") ++
        printed orig (k + elements.wordCount) next

theorem run_wordToString (sentence : SentenceWords g words orig) (behind : 1 ≤ k) {wn : ℕ}
    (spoken : words[k]? = some wn) (own : g.kvPairs fn ≠ none)
    (leads : g.feature fn "phr-word" = some wn) (str : String) :
    (wordToString fn str).run g = .ok (str ++ spelled (orig k)) g := by
  have ownWord := (sentence.present k wn behind spoken).2
  have spelling := sentence.spelled k wn behind spoken
  rw [wordToString, EStateM.run_bind, run_getFeature_of_keyed own, leads]
  simp only []
  rw [EStateM.run_bind, run_getFeature_of_keyed ownWord]
  cases written : orig k with
  | none =>
    rw [written] at spelling
    rw [spelling, spelled, Option.elim_none, String.append_empty]
    rfl
  | some word =>
    rw [written] at spelling
    obtain ⟨o, -, leads, value⟩ := spelling
    rw [leads]
    simp only []
    rw [EStateM.run_bind, run_getValue value, spelled, Option.elim_some, ← String.append_assoc]
    rfl

/-- A chain is written as the list of elements that it is. -/
theorem elementsToString_spec {elements : PhraseList} (sentence : SentenceWords g words orig)
    (behind : 1 ≤ k) (chain : Chain words g lo next k elements) {depth : ℕ}
    (deep : elements.depth ≤ depth) (str : String) :
    (elementsToString depth next str).run g = .ok (str ++ printed orig k elements) g := by
  induction elements generalizing next k depth str with
  | nil =>
    obtain rfl : next = none := chain
    rw [elementsToString, printed, String.append_empty]
    rfl
  | word blank text rest ih =>
    obtain ⟨fn, wn, rfl, spoken, element, chain⟩ := chain
    obtain ⟨depth, rfl⟩ : ∃ d, depth = d + 1 :=
      Nat.exists_eq_add_one.mpr (lt_of_lt_of_le (Nat.succ_pos _) deep)
    have look := run_getFeature_of_keyed element.keyed
    have after := ih (by omega : 1 ≤ k + 1) chain (Nat.le_of_succ_le_succ deep)
    rw [elementsToString, EStateM.run_bind, run_typeToString element.keyed element.type]
    simp only []
    rw [EStateM.run_bind, run_wordToString sentence behind spoken element.keyed element.word]
    simp only []
    rw [EStateM.run_bind, look, element.head]
    simp only [Option.elim_none]
    rw [EStateM.run_bind, EStateM.run_pure]
    simp only []
    rw [EStateM.run_bind, look]
    simp only []
    rw [after, printed, String.append_assoc]
  | phrase blank type elements rest ihElements ihRest =>
    obtain ⟨fn, head, rfl, element, first, inside, chain⟩ := chain
    obtain ⟨depth, rfl⟩ : ∃ d, depth = d + 1 :=
      Nat.exists_eq_add_one.mpr (lt_of_lt_of_le (Nat.succ_pos _) deep)
    rw [PhraseList.depth] at deep
    obtain ⟨depth, rfl⟩ : ∃ d, depth = d + 1 := Nat.exists_eq_add_one.mpr (by omega)
    have look := run_getFeature_of_keyed element.keyed
    have phrase : (_toString (depth + 1) head (str ++ " ")).run g = _ :=
      run_toString_of_elements first (ihElements behind inside (by omega : elements.depth ≤ depth))
    have after := ihRest (by omega : 1 ≤ k + elements.wordCount) chain
      (by omega : rest.depth ≤ depth + 1)
    rw [elementsToString, EStateM.run_bind, run_typeToString element.keyed element.type]
    simp only []
    rw [EStateM.run_bind, run_wordToString_of_phrase element.keyed element.word]
    simp only []
    rw [EStateM.run_bind, look, element.head]
    simp only [Option.elim_some]
    rw [EStateM.run_bind, phrase]
    simp only []
    rw [EStateM.run_bind, look]
    simp only []
    rw [after, printed]
    simp only [String.append_assoc]

/-- The words of the text are those of the sentence, and there is one space before each element. -/
def Spells (orig : ℕ → Option String) : ℕ → PhraseList → Prop
  | _, .nil => True
  | k, .word blank text next =>
      blank = [' '] ∧ orig k = some (String.ofList text) ∧ Spells orig (k + 1) next
  | k, .phrase blank _ elements next =>
      blank = [' '] ∧ Spells orig k elements ∧ Spells orig (k + elements.wordCount) next

/-- A word without parentheses stays. -/
theorem braced_ofList {text : List Char} (bare : Bare text) :
    braced (String.ofList text) = String.ofList text := by
  rw [braced, String.toList_ofList]
  congr 1
  refine (List.map_congr_left fun c member => ?_).trans (List.map_id text)
  rw [if_neg (bare c member).2.1, if_neg (bare c member).2.2]
  rfl

/-- Then the text is written as it was. -/
theorem printed_of_spells {elements : PhraseList} {first : Bool} (proper : elements.Proper first)
    (spells : Spells orig k elements) : printed orig k elements = String.ofList elements.text := by
  induction elements generalizing first k with
  | nil => rfl
  | word blank text next ih =>
    obtain ⟨-, -, bare, proper⟩ := proper
    obtain ⟨rfl, same, spells⟩ := spells
    rw [printed, spelled, same, ih proper spells, Option.elim_some, braced_ofList bare,
      PhraseList.text]
    apply String.toList_injective
    simp
  | phrase blank type elements next ihElements ihNext =>
    obtain ⟨-, -, proper, properNext⟩ := proper
    obtain ⟨rfl, spells, spellsNext⟩ := spells
    rw [printed, ihElements proper spells, ihNext properNext spellsNext, PhraseList.text]
    apply String.toList_injective
    simp

/-- The phrases of a sentence are read into the graph, and then written: the types and the nesting
are those of the text, and the words are those of the sentence. If these are the same, then the
text is written. -/
theorem ofNode_markup (sentence : SentenceWords g words orig) (present : left < g.size)
    (own : g.kvPairs left ≠ none) (free : ¬ Spoken words left) {type tail : List Char}
    {elements : PhraseList} (bare : Bare type) (proper : elements.Proper true)
    (white : ∀ c ∈ tail, c ∈ blanks) (enough : elements.wordCount < words.length) :
    ∃ g', (markup words left (phraseText type elements ++ tail)).run g =
        .ok (1 + elements.wordCount) g' ∧
      (∀ depth, (phraseText type elements).length < depth → (ofNode depth left).run g' =
        .ok (some ("(" ++ String.ofList type ++ printed orig 1 elements ++ ")")) g') ∧
      (Spells orig 1 elements → "(" ++ String.ofList type ++ printed orig 1 elements ++ ")" =
        String.ofList (phraseText type elements)) := by
  have deep := depth_le_length proper
  have length := length_phraseText type elements
  obtain ⟨g', run, changes, head, leads, first, chain⟩ :=
    doMarkup_of_reads (markupElements_spec words elements) proper
      (by rw [List.length_append]; omega :
        elements.depth ≤ 2 * (phraseText type elements ++ tail).length + 1)
      sentence present own free none le_rfl (by omega) bare white
  refine ⟨g', run, fun depth more => ?_, fun spells => ?_⟩
  · obtain ⟨depth, rfl⟩ : ∃ d, depth = d + 1 := Nat.exists_eq_add_one.mpr (by omega)
    have sentence' := sentence.of_marks changes (by decide)
    have look := run_getFeature_of_keyed (changes.keyed left present own) "phr-head"
    rw [leads] at look
    have text : (_toString (depth + 1) head "").run g' = _ := run_toString_of_elements first
      (elementsToString_spec sentence' le_rfl chain (by omega))
    rw [ofNode, EStateM.run_bind, look]
    simp only []
    rw [toString, EStateM.run_bind, look]
    simp only []
    rw [EStateM.run_bind, text, String.empty_append]
    rfl
  · rw [printed_of_spells proper spells, phraseText]
    apply String.toList_injective
    simp

/-- The left wall, and two words. -/
def saidIRan : FeatureGraph :=
  madeBy [(.plain, .new), (.plain, .new), (.plain, .addValue 1 "orig_str" (some "I")),
    (.plain, .new), (.plain, .addValue 3 "orig_str" (some "ran"))]

/-- How the two words are written. -/
def iRan : ℕ → Option String
  | 1 => some "I"
  | _ => some "ran"

theorem sentenceWords_saidIRan : SentenceWords saidIRan [0, 1, 3] iRan := by
  constructor
  · intro k w behind spoken
    match k, behind, spoken with
    | 1, _, rfl => exact ⟨by decide, fun none_ => absurd (congrArg Option.isSome none_) (by decide)⟩
    | 2, _, rfl => exact ⟨by decide, fun none_ => absurd (congrArg Option.isSome none_) (by decide)⟩
  · intro k w behind spoken
    match k, behind, spoken with
    | 1, _, rfl => exact ⟨2, by decide, by decide, rfl⟩
    | 2, _, rfl => exact ⟨4, by decide, by decide, rfl⟩

/-- `(S I (VP ran))`, from the second part on. -/
def ranInside : PhraseList :=
  .word [' '] ['I'] (.phrase [' '] ['V', 'P'] (.word [' '] ['r', 'a', 'n'] .nil) .nil)

theorem ofNode_markup_saidIRan : ∃ g', (markup [0, 1, 3] 0
      (phraseText ['S'] ranInside ++ ['\n'])).run saidIRan = .ok 3 g' ∧
    ∀ depth, (phraseText ['S'] ranInside).length < depth →
      (ofNode depth 0).run g' = .ok (some (String.ofList (phraseText ['S'] ranInside))) g' := by
  have bare : ∀ text ∈ [['S'], ['I'], ['V', 'P'], ['r', 'a', 'n']], Bare text := by
    simp [Bare, blanks]
  have space : ∀ first, Blank first [' '] := fun first =>
    ⟨by simp [blanks], by cases first <;> simp⟩
  have apart : ¬ Spoken [0, 1, 3] 0 := fun ⟨k, behind, spoken⟩ => by
    match k, behind, spoken with
    | 1, _, spoken => exact absurd spoken (by decide)
    | 2, _, spoken => exact absurd spoken (by decide)
  have proper : ranInside.Proper true :=
    ⟨space _, by decide, bare _ (by simp), space _, bare _ (by simp),
      ⟨space _, by decide, bare _ (by simp), rfl⟩, rfl⟩
  obtain ⟨g', run, writes, same⟩ := ofNode_markup sentenceWords_saidIRan (by decide)
    (fun none_ => absurd (congrArg Option.isSome none_) (by decide)) apart
    (bare ['S'] (by simp)) proper (by simp [blanks] : ∀ c ∈ ['\n'], c ∈ blanks) (by decide)
  refine ⟨g', run, fun depth more => ?_⟩
  rw [writes depth more, same ⟨rfl, rfl, rfl, ⟨rfl, rfl, trivial⟩, trivial⟩]

end PhraseTree

end ThinkingUnderstanding
