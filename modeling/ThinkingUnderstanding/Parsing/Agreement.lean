import ThinkingUnderstanding.Parsing.LinkParser

/-!
# Do the splitter and the link parser agree?

The splitter makes the phrases of a sentence out of a feature tree, and the link parser
looks up the nodes of such a tree among the phrases. They agree when every node is found in
exactly one phrase.

The proof counts. A word that is the name of one node is found in as many phrases as the
splitter makes of that node: one for every relation `of`, since the compound contains the
node, and one more when the node stands alone. This is one phrase for every node but those
that have an `of` beside another relation.

## Main definitions

* `Agree` — every node of a tree is found in exactly one of its phrases
* `FeatureNode.Visited.Mixed` — a node with an `of` and another relation

## Main results

* `countFound_processNodeRec` — in how many phrases a word is found
* `agree_iff` — when the splitter and the link parser agree
-/

namespace ThinkingUnderstanding

open PhraseContent PreliminarySplitter

/-- A node has a relation `of` and another relation that is walked into. -/
def FeatureNode.Visited.Mixed (node : FeatureNode.Visited) : Prop :=
  "of" ∈ node.linkNames ∧ 2 ≤ node.linkNames.length

instance : DecidablePred FeatureNode.Visited.Mixed :=
  fun node => inferInstanceAs (Decidable ("of" ∈ node.linkNames ∧ 2 ≤ node.linkNames.length))

/-- The number of phrases that contain a node: one for every `of`, and one more when there
is another relation, or none at all. -/
def FeatureNode.Visited.multiplicity (node : FeatureNode.Visited) : ℕ :=
  node.linkNames.count "of" + if node.linkNames.all (· ∈ relexFeaturesPhrases) then
    (if node.linkNames = [] then 1 else 0) else 1

section Count

variable (textCase : TextCase) (word : String)

/-- A word that can only be found as the name of a node. -/
structure IsPlain : Prop where
  noBlank : ' ' ∉ word.toList
  notOf : textCase.toLowerCase word ≠ "of"

/-- The number of phrases in which the word is found. -/
def countFound (phrases : List PhraseContent) : ℕ := phrases.countP (isFound textCase word)

/-- The same for the result of a walk. -/
def countResult : Except ParseFailure (List PhraseContent) → ℕ
  | .ok phrases => countFound textCase word phrases
  | .error _ => 0

variable {textCase} {word} {current first : PhraseContent} {sentenceIndex : ℚ}
  {phrases others : List PhraseContent}

theorem IsPlain.toLowerCase_ne_of_blank (plain : IsPlain textCase word) {text : String}
    (blank : ' ' ∈ text.toList) : textCase.toLowerCase text ≠ textCase.toLowerCase word := by
  intro same
  rw [← textCase.blank_mem_toLowerCase, same, textCase.blank_mem_toLowerCase] at blank
  exact plain.noBlank blank

theorem IsPlain.toLowerCase_ne_of (plain : IsPlain textCase word) :
    textCase.toLowerCase "of" ≠ textCase.toLowerCase word := by
  rw [textCase.toLowerCase_of]
  exact plain.notOf.symm

/-- A compound is found by what either of its two phrases is found by. -/
theorem IsPlain.isFound_compound (plain : IsPlain textCase word) :
    (ofWords [current, ofWord "of" sentenceIndex, first] sentenceIndex).isFound textCase word =
      (current.isFound textCase word || first.isFound textCase word) := by
  have blank : ' ' ∈
      (ofWords [current, ofWord "of" sentenceIndex, first] sentenceIndex).text.toList :=
    blank_mem_text_ofWords (by simp [ofWord, text])
  have connection : (ofWord "of" sentenceIndex).isFound textCase word = false :=
    Bool.eq_false_iff.mpr fun found => plain.toLowerCase_ne_of (isFound_ofWord_iff.mp found)
  rw [Bool.eq_iff_iff, isFound_ofWords_iff, or_iff_right (plain.toLowerCase_ne_of_blank blank)]
  simp [connection]

theorem IsPlain.isFound_pair (plain : IsPlain textCase word) :
    (ofWords [current, ofWord "of" sentenceIndex] sentenceIndex).isFound textCase word =
      current.isFound textCase word := by
  have apart : textCase.toLowerCase
      (ofWords [current, ofWord "of" sentenceIndex] sentenceIndex).text ≠
        textCase.toLowerCase word := by
    rcases text_ofWords_pair_cases (a := current) (b := ofWord "of" sentenceIndex) with
      same | blank
    · rw [same]
      exact plain.toLowerCase_ne_of
    · exact plain.toLowerCase_ne_of_blank blank
  have connection : (ofWord "of" sentenceIndex).isFound textCase word = false :=
    Bool.eq_false_iff.mpr fun found => plain.toLowerCase_ne_of (isFound_ofWord_iff.mp found)
  rw [Bool.eq_iff_iff, isFound_ofWords_iff, or_iff_right apart]
  simp [connection]

@[simp] theorem countFound_nil : countFound textCase word [] = 0 := rfl

theorem countFound_cons (content : PhraseContent) :
    countFound textCase word (content :: phrases) =
      countFound textCase word phrases + if content.isFound textCase word then 1 else 0 :=
  List.countP_cons

theorem countFound_append : countFound textCase word (phrases ++ others) =
    countFound textCase word phrases + countFound textCase word others := List.countP_append

/-- What the loop over the relations adds: what is found below them, and the node itself
once for every `of`. -/
theorem countFound_processLinks (plain : IsPlain textCase word)
    {links : List (String × Except ParseFailure (List PhraseContent))}
    (alone : current.isFound textCase word → ∀ link ∈ links, countResult textCase word link.2 = 0)
    {found result : List PhraseContent × Bool}
    (run : processLinks current sentenceIndex links found = .ok result) :
    countFound textCase word result.1 = countFound textCase word found.1 +
      (links.map fun link => countResult textCase word link.2).sum +
        (if current.isFound textCase word then (links.map Prod.fst).count "of" else 0) := by
  induction links generalizing found with
  | nil =>
    cases run
    simp
  | cons link rest ih =>
    obtain ⟨f, process⟩ := link
    obtain ⟨phrases, notCompound⟩ := found
    obtain ⟨childPhrases, ended, run⟩ := bind_eq_ok_iff.mp run
    have alone' : current.isFound textCase word →
        ∀ link ∈ rest, countResult textCase word link.2 = 0 :=
      fun hit link member => alone hit link (List.mem_cons_of_mem _ member)
    have child : countResult textCase word process = countFound textCase word childPhrases := by
      rw [ended]
      rfl
    rw [List.map_cons, List.map_cons, List.sum_cons, List.count_cons, child]
    by_cases compound : f ∈ relexFeaturesPhrases
    · obtain rfl := List.mem_singleton.mp compound
      rw [if_pos compound] at run
      -- the compound takes the place of the first phrase of the other node
      cases childPhrases with
      | nil =>
        rw [ih alone' run, countFound_cons, plain.isFound_pair]
        cases current.isFound textCase word with
        | false => simp
        | true =>
          simp
          omega
      | cons first others =>
        rw [ih alone' run, List.cons_append, countFound_cons, countFound_append,
          plain.isFound_compound, countFound_cons]
        cases hit : current.isFound textCase word with
        | false =>
          simp
          omega
        | true =>
          have none := alone hit ("of", process) List.mem_cons_self
          rw [child, countFound_cons] at none
          have missed : first.isFound textCase word = false := by
            by_contra found
            simp [Bool.not_eq_false _ ▸ found] at none
          simp [missed]
          omega
    · rw [if_neg compound] at run
      have other : f ≠ "of" := fun same => compound (List.mem_singleton.mpr same)
      rw [ih alone' run, countFound_append]
      simp [other]
      omega

variable (current sentenceIndex) in
/-- The loop ends normally when the walks below do. -/
theorem exists_processLinks_eq_ok_iff (found : List PhraseContent × Bool)
    {links : List (String × Except ParseFailure (List PhraseContent))} :
    (∃ result, processLinks current sentenceIndex links found = .ok result) ↔
      ∀ link ∈ links, ∃ phrases, link.2 = .ok phrases := by
  induction links generalizing found with
  | nil => exact iff_of_true ⟨found, rfl⟩ (List.forall_mem_nil _)
  | cons link rest ih =>
    obtain ⟨f, process⟩ := link
    obtain ⟨phrases, notCompound⟩ := found
    rw [List.forall_mem_cons]
    cases process with
    | error e =>
      refine iff_of_false ?_ ?_
      · rintro ⟨result, run⟩
        cases run
      · rintro ⟨⟨phrases, run⟩, -⟩
        cases run
    | ok childPhrases =>
      rw [and_iff_right ⟨childPhrases, rfl⟩]
      -- a compound or not, the loop goes on with what it has found
      by_cases compound : f ∈ relexFeaturesPhrases
      · cases childPhrases with
        | nil =>
          rw [← ih]
          exact exists_congr fun result => Eq.congr_left (if_pos compound)
        | cons first others =>
          rw [← ih]
          exact exists_congr fun result => Eq.congr_left (if_pos compound)
      · rw [← ih]
        exact exists_congr fun result => Eq.congr_left (if_neg compound)

/-- The node stands alone when it has a relation other than `of`. -/
theorem snd_processLinks {links : List (String × Except ParseFailure (List PhraseContent))}
    {found result : List PhraseContent × Bool}
    (run : processLinks current sentenceIndex links found = .ok result) :
    result.2 = (found.2 || !(links.map Prod.fst).all (· ∈ relexFeaturesPhrases)) := by
  induction links generalizing found with
  | nil =>
    cases run
    simp
  | cons link rest ih =>
    obtain ⟨f, process⟩ := link
    obtain ⟨phrases, notCompound⟩ := found
    obtain ⟨childPhrases, ended, run⟩ := bind_eq_ok_iff.mp run
    by_cases compound : f ∈ relexFeaturesPhrases
    · rw [if_pos compound] at run
      cases childPhrases <;> (rw [ih run]; simp [compound])
    · rw [if_neg compound] at run
      rw [ih run]
      simp [compound]

/-- The phrases of a node and its relations contain what is found below, and the node as
often as its relations tell. -/
theorem countFound_linkedPhrases (plain : IsPlain textCase word) (features : NodeFeatures)
    {links : List (String × Except ParseFailure (List PhraseContent))}
    (alone : current.isFound textCase word →
      ∀ link ∈ filteredFeatures links, countResult textCase word link.2 = 0)
    (run : linkedPhrases current sentenceIndex links = .ok phrases) :
    countFound textCase word phrases =
      ((filteredFeatures links).map fun link => countResult textCase word link.2).sum +
        (if current.isFound textCase word then
          FeatureNode.Visited.multiplicity ⟨features, FeatureNode.linkNames links⟩ else 0) := by
  rw [linkedPhrases] at run
  rw [FeatureNode.Visited.multiplicity, FeatureNode.linkNames]
  by_cases some : (filteredFeatures links).length > 0
  · rw [if_pos some] at run
    obtain ⟨found, looped, same⟩ := bind_eq_ok_iff.mp run
    obtain rfl := Except.ok.inj same
    -- the word is counted in the links, and once more in the phrase of the node itself
    have counted := countFound_processLinks plain alone looped
    have flag := snd_processLinks looped
    rw [countFound_nil, Nat.zero_add] at counted
    have linked : (filteredFeatures links).map Prod.fst ≠ [] := by
      rw [ne_eq, List.map_eq_nil_iff]
      exact List.length_pos_iff.mp some
    rw [Bool.false_or] at flag
    rw [if_neg linked, flag]
    cases ((filteredFeatures links).map Prod.fst).all (· ∈ relexFeaturesPhrases) with
    | false =>
      rw [Bool.not_false, if_pos rfl, countFound_cons, counted]
      cases current.isFound textCase word <;> simp
      omega
    | true => simpa using counted
  · rw [if_neg some] at run
    obtain rfl := Except.ok.inj run
    have empty : filteredFeatures links = [] := List.length_eq_zero_iff.mp (by omega)
    rw [empty, countFound_cons]
    simp

theorem exists_linkedPhrases_eq_ok_iff
    {links : List (String × Except ParseFailure (List PhraseContent))} :
    (∃ phrases, linkedPhrases current sentenceIndex links = .ok phrases) ↔
      ∀ link ∈ filteredFeatures links, ∃ phrases, link.2 = .ok phrases := by
  rw [linkedPhrases]
  by_cases some : (filteredFeatures links).length > 0
  · rw [if_pos some, ← exists_processLinks_eq_ok_iff current sentenceIndex ([], false)]
    constructor
    · rintro ⟨phrases, run⟩
      obtain ⟨found, looped, -⟩ := bind_eq_ok_iff.mp run
      exact ⟨found, looped⟩
    · rintro ⟨found, looped⟩
      exact ⟨_, bind_eq_ok_iff.mpr ⟨found, looped, rfl⟩⟩
  · rw [if_neg some]
    have empty : filteredFeatures links = [] := List.length_eq_zero_iff.mp (by omega)
    rw [empty]
    exact iff_of_true ⟨_, rfl⟩ (List.forall_mem_nil _)

end Count

/-! ### Whole trees -/

/-- The node is looked up by the word. -/
def FeatureNode.Visited.isNamed (textCase : TextCase) (word : String)
    (node : FeatureNode.Visited) : Bool :=
  (LinkParser.nameOf node.features).any fun name =>
    textCase.toLowerCase name = textCase.toLowerCase word

/-- The splitter needs a name and an index of a node. -/
def FeatureNode.Visited.IsSplittable (node : FeatureNode.Visited) : Prop :=
  (∃ name, getName node.features = .ok name) ∧ ∃ index, node.features.sentenceIndex = .ok index

theorem sum_map_flatMap {α β : Type} (f : α → List β) (g : β → ℕ) (as : List α) :
    ((as.flatMap f).map g).sum = (as.map fun a => ((f a).map g).sum).sum := by
  induction as with
  | nil => rfl
  | cons a rest ih =>
    rw [List.flatMap_cons, List.map_append, List.sum_append, ih]
    rfl

/-- The splitter makes phrases of a tree exactly when it can split every node. -/
theorem exists_processNodeRec_eq_ok_iff {tree : FeatureNode} :
    (∃ phrases, processNodeRec tree = .ok phrases) ↔ ∀ node ∈ tree.visited, node.IsSplittable := by
  induction tree using FeatureNode.induction with
  | step features links next linked continued =>
    rw [FeatureNode.visited_node, List.forall_mem_cons, List.forall_mem_append]
    have below : (∀ node ∈ (filteredFeatures links).flatMap fun link => link.2.visited,
        node.IsSplittable) ↔
        ∀ link ∈ filteredFeatures links, ∃ phrases, processNodeRec link.2 = .ok phrases := by
      rw [List.forall_mem_flatMap]
      exact forall₂_congr fun link member => (linked link (List.mem_of_mem_filter member)).symm
    have after : (∀ node ∈ next.elim [] FeatureNode.visited, node.IsSplittable) ↔
        ∃ phrases, next.elim (.ok []) processNodeRec = .ok phrases := by
      cases next with
      | none => exact iff_of_true (List.forall_mem_nil _) ⟨_, rfl⟩
      | some feature => exact (continued feature rfl).symm
    have linkedOk : ∀ current index, (∃ own, linkedPhrases current index
        (links.map fun link => (link.1, processNodeRec link.2)) = .ok own) ↔
        ∀ link ∈ filteredFeatures links, ∃ phrases, processNodeRec link.2 = .ok phrases := by
      intro current index
      rw [exists_linkedPhrases_eq_ok_iff, FeatureNode.filteredFeatures_map, List.forall_mem_map]
    rw [below, after]
    constructor
    · rintro ⟨phrases, run⟩
      obtain ⟨name, index, own, rest, named, indexed, ended, went, -⟩ :=
        processNodeRec_node_eq_ok_iff.mp run
      exact ⟨⟨⟨name, named⟩, index, indexed⟩, (linkedOk _ _).mp ⟨own, ended⟩, rest, went⟩
    · rintro ⟨⟨⟨name, named⟩, index, indexed⟩, all, rest, went⟩
      obtain ⟨own, ended⟩ := (linkedOk (currentPhrase name index) index).mpr all
      exact ⟨rest ++ own, processNodeRec_node_eq_ok_iff.mpr
        ⟨name, index, own, rest, named, indexed, ended, went, rfl⟩⟩

variable {textCase : TextCase} {word : String}

theorem nameOf_of_getName {features : NodeFeatures} {name : String}
    (named : getName features = .ok name) : LinkParser.nameOf features = some name := by
  unfold getName at named
  unfold LinkParser.nameOf LinkParser.getNameOrigString
  cases first : features.name with
  | some own =>
    rw [first] at named
    exact congrArg some (Except.ok.inj named)
  | none =>
    cases second : features.origStr with
    | some origStr =>
      rw [first, second] at named
      exact congrArg some (Except.ok.inj named)
    | none =>
      rw [first, second] at named
      cases named

/-- The phrase of a node whose name has no underscore is found by its name only. -/
theorem isFound_currentPhrase {features : NodeFeatures} {links : List String} {name : String}
    {index : ℚ} (named : getName features = .ok name) (spelled : '_' ∉ name.toList) :
    (currentPhrase name index).isFound textCase word =
      FeatureNode.Visited.isNamed textCase word ⟨features, links⟩ := by
  rw [currentPhrase, if_neg spelled, FeatureNode.Visited.isNamed, nameOf_of_getName named,
    Bool.eq_iff_iff, isFound_ofWord_iff]
  simp

/-- The number of phrases in which the word finds a node. -/
def FeatureNode.Visited.parts (textCase : TextCase) (word : String)
    (node : FeatureNode.Visited) : ℕ :=
  if node.isNamed textCase word then node.multiplicity else 0

theorem sum_parts_eq_zero {nodes : List FeatureNode.Visited}
    (other : nodes.countP (·.isNamed textCase word) = 0) :
    (nodes.map fun node => node.parts textCase word).sum = 0 := by
  rw [List.countP_eq_zero] at other
  apply List.sum_eq_zero
  rw [List.forall_mem_map]
  intro node member
  exact if_neg (other node member)

theorem countP_le_of_mem_filteredFeatures {links : List (String × FeatureNode)}
    {link : String × FeatureNode} (member : link ∈ filteredFeatures links)
    (named : FeatureNode.Visited → Bool) :
    link.2.visited.countP named ≤
      ((filteredFeatures links).flatMap fun link => link.2.visited).countP named := by
  rw [List.countP_flatMap]
  exact List.single_le_sum (fun _ _ => Nat.zero_le _) _ (List.mem_map_of_mem member)

/-- A word that is the name of at most one node is found in as many phrases as the node
has a part in. -/
theorem countFound_processNodeRec (plain : IsPlain textCase word) {tree : FeatureNode}
    (once : tree.visited.countP (·.isNamed textCase word) ≤ 1)
    (spelled : ∀ node ∈ tree.visited, ∀ name, LinkParser.nameOf node.features = some name →
      '_' ∉ name.toList) {phrases : List PhraseContent}
    (run : processNodeRec tree = .ok phrases) :
    countFound textCase word phrases =
      (tree.visited.map fun node => node.parts textCase word).sum := by
  induction tree using FeatureNode.induction generalizing phrases with
  | step features links next linked continued =>
    obtain ⟨name, index, own, rest, named, indexed, ended, went, rfl⟩ :=
      processNodeRec_node_eq_ok_iff.mp run
    rw [FeatureNode.visited_node] at once spelled ⊢
    rw [List.forall_mem_cons, List.forall_mem_append, List.forall_mem_flatMap] at spelled
    obtain ⟨spelledHere, spelledBelow, spelledNext⟩ := spelled
    rw [List.countP_cons, List.countP_append] at once
    have hit : (currentPhrase name index).isFound textCase word =
        FeatureNode.Visited.isNamed textCase word ⟨features, FeatureNode.linkNames links⟩ :=
      isFound_currentPhrase named (spelledHere name (nameOf_of_getName named))
    have all := exists_linkedPhrases_eq_ok_iff.mp ⟨own, ended⟩
    rw [FeatureNode.filteredFeatures_map, List.forall_mem_map] at all
    -- the walks below, by the induction hypothesis
    have below : ∀ link ∈ filteredFeatures links, countResult textCase word
        (processNodeRec link.2) =
          (link.2.visited.map fun node => node.parts textCase word).sum := by
      intro link member
      obtain ⟨phrases, walked : processNodeRec link.2 = .ok phrases⟩ := all link member
      have few := countP_le_of_mem_filteredFeatures member (·.isNamed textCase word)
      rw [walked]
      exact linked link (List.mem_of_mem_filter member) (by omega) (spelledBelow link member) walked
    have after : countFound textCase word rest =
        ((next.elim [] FeatureNode.visited).map fun node => node.parts textCase word).sum := by
      cases next with
      | none =>
        obtain rfl := Except.ok.inj went
        rfl
      | some feature =>
        rw [Option.elim_some] at once spelledNext
        exact continued feature rfl (by omega) spelledNext went
    -- no node below has the name when the node itself has it
    have alone : (currentPhrase name index).isFound textCase word →
        ∀ link ∈ filteredFeatures (links.map fun link => (link.1, processNodeRec link.2)),
          countResult textCase word link.2 = 0 := by
      intro found
      rw [FeatureNode.filteredFeatures_map, List.forall_mem_map]
      intro link member
      rw [hit] at found
      rw [found, if_pos rfl] at once
      have few := countP_le_of_mem_filteredFeatures member (·.isNamed textCase word)
      exact (below link member).trans (sum_parts_eq_zero (by omega))
    have here := countFound_linkedPhrases plain features alone ended
    have names : FeatureNode.linkNames (links.map fun link => (link.1, processNodeRec link.2)) =
        FeatureNode.linkNames links := by
      rw [FeatureNode.linkNames, FeatureNode.linkNames, FeatureNode.filteredFeatures_map,
        List.map_map]
      rfl
    have sums : (filteredFeatures links).map ((fun link => countResult textCase word link.2) ∘
        fun link : String × FeatureNode => (link.1, processNodeRec link.2)) =
          (filteredFeatures links).map fun link =>
            (link.2.visited.map fun node => node.parts textCase word).sum :=
      List.map_congr_left below
    rw [FeatureNode.filteredFeatures_map, List.map_map, names, hit, sums] at here
    rw [countFound_append, after, here, List.map_cons, List.sum_cons, List.map_append,
      List.sum_append, sum_map_flatMap, FeatureNode.Visited.parts]
    omega

/-- The node has a part in one phrase only unless it has an `of` beside another relation. -/
theorem multiplicity_eq_one_iff {node : FeatureNode.Visited} :
    node.multiplicity = 1 ↔ ¬ node.Mixed := by
  rw [FeatureNode.Visited.multiplicity, FeatureNode.Visited.Mixed]
  by_cases compound : ∀ name ∈ node.linkNames, name = "of"
  · have all : node.linkNames.all (· ∈ relexFeaturesPhrases) = true := by
      rw [List.all_eq_true]
      intro name member
      simp [compound name member, relexFeaturesPhrases]
    have count : node.linkNames.count "of" = node.linkNames.length :=
      List.count_eq_length.mpr fun name member => (compound name member).symm
    rw [if_pos all, count]
    cases names : node.linkNames with
    | nil => simp
    | cons name rest =>
      rw [names] at compound
      obtain rfl := compound name List.mem_cons_self
      simp
  · have all : ¬ node.linkNames.all (· ∈ relexFeaturesPhrases) = true := by
      rw [List.all_eq_true]
      intro all
      apply compound
      intro name member
      simpa [relexFeaturesPhrases] using all name member
    rw [if_neg all]
    push Not at compound
    obtain ⟨other, member, apart⟩ := compound
    constructor
    · rintro one ⟨present, -⟩
      have positive := List.count_pos_iff.mpr present
      omega
    · intro unmixed
      -- with a link of another name, one that is an "of" would make two
      have absent : "of" ∉ node.linkNames := by
        intro present
        apply unmixed
        refine ⟨present, ?_⟩
        by_contra few
        have some := List.length_pos_of_mem present
        obtain ⟨name, same⟩ := List.length_eq_one_iff.mp (by omega : node.linkNames.length = 1)
        rw [same, List.mem_singleton] at member present
        exact apart (member.trans present.symm)
      rw [List.count_eq_zero.mpr absent]

/-! ### Names -/

/-- The names by which the nodes of a tree are looked up. -/
def FeatureNode.names (tree : FeatureNode) : List String :=
  tree.visited.filterMap fun node => LinkParser.nameOf node.features

/-- The names are distinct whatever the case of their letters, contain no underscore and no
blank, and none is the word `of`. -/
structure WellNamed (textCase : TextCase) (tree : FeatureNode) : Prop where
  distinct : (tree.names.map textCase.toLowerCase).Nodup
  spelled : ∀ name ∈ tree.names, ∀ c ∈ name.toList, c ≠ '_' ∧ ' ' < c
  notOf : ∀ name ∈ tree.names, textCase.toLowerCase name ≠ "of"

/-- The splitter makes phrases of the tree, and in a sentence of these phrases, in any order,
the link parser finds exactly one for the name of every node; so it does not miss a phrase
and does not find an ambiguous one. -/
def Agree (textCase : TextCase) (tree : FeatureNode) : Prop :=
  ∃ phrases, processNodeRec tree = .ok phrases ∧
    ∀ (contents : PhraseRef → PhraseContent) (sentence : Sentence),
      (sentence.map contents).Perm phrases → ∀ name ∈ tree.names,
        (LinkParser.findPhrase textCase contents name sentence).length = 1 ∧
          ∀ s message t, (LinkParser.getConcept textCase contents name sentence).run s ≠
            .error (.unexpectedException message) t

theorem countP_isNamed (nodes : List FeatureNode.Visited) :
    nodes.countP (·.isNamed textCase word) =
      ((nodes.filterMap fun node => LinkParser.nameOf node.features).map
        textCase.toLowerCase).count (textCase.toLowerCase word) := by
  induction nodes with
  | nil => rfl
  | cons node rest ih =>
    rw [List.countP_cons, List.filterMap_cons, ih, FeatureNode.Visited.isNamed]
    cases LinkParser.nameOf node.features with
    | none => simp
    | some name =>
      rw [List.map_cons, List.count_cons]
      simp

/-- Of a sum over nodes only the one with the name remains. -/
theorem sum_parts_eq {nodes : List FeatureNode.Visited} {node : FeatureNode.Visited}
    (once : nodes.countP (·.isNamed textCase word) ≤ 1) (member : node ∈ nodes)
    (named : node.isNamed textCase word) :
    (nodes.map fun node => node.parts textCase word).sum = node.multiplicity := by
  induction nodes with
  | nil => cases member
  | cons first rest ih =>
    rw [List.countP_cons] at once
    rw [List.map_cons, List.sum_cons]
    rcases List.mem_cons.mp member with rfl | later
    · rw [if_pos named] at once
      rw [FeatureNode.Visited.parts, if_pos named, sum_parts_eq_zero (by omega), Nat.add_zero]
    · have some : 0 < rest.countP (·.isNamed textCase word) :=
        List.countP_pos_iff.mpr ⟨node, later, named⟩
      have other : ¬ first.isNamed textCase word := by
        intro hit
        rw [if_pos hit] at once
        omega
      rw [FeatureNode.Visited.parts, if_neg other, Nat.zero_add]
      exact ih (by omega) later

theorem trim_eq_self {text : String} (spelled : ∀ c ∈ text.toList, ' ' < c) : trim text = text := by
  have strip : ∀ cs : List Char, (∀ c ∈ cs, ' ' < c) →
      cs.dropWhile (fun c => decide (c ≤ ' ')) = cs := by
    intro cs visible
    cases cs with
    | nil => rfl
    | cons c rest =>
      rw [List.dropWhile_cons_of_neg]
      simpa using visible c List.mem_cons_self
  rw [trim, strip _ spelled, strip _ (by simpa using spelled), List.reverse_reverse,
    String.ofList_toList]

theorem replaceChar_eq_self {text : String} {target replacement : Char}
    (absent : ∀ c ∈ text.toList, c ≠ target) : replaceChar text target replacement = text := by
  rw [replaceChar, List.map_congr_left fun c member => if_neg (absent c member), List.map_id',
    String.ofList_toList]

/-- Where one phrase is found, only the name of an orphan can be an obstacle. -/
theorem run_getConcept_ne_unexpected {contents : PhraseRef → PhraseContent} {name : String}
    {sentence : Sentence} {phrase : PhraseRef}
    (one : LinkParser.findPhrase textCase contents name sentence = [phrase]) (s : ParserState)
    (message : String) (t : ParserState) :
    (LinkParser.getConcept textCase contents name sentence).run s ≠
      .error (.unexpectedException message) t := by
  intro run
  match known : (s.heap.phrase phrase).concepts with
  | [concept] =>
    rw [LinkParser.run_getConcept_of_concept one known] at run
    cases run
  | _ :: _ :: _ =>
    rw [LinkParser.run_getConcept_of_ambiguous one known] at run
    cases run
  | [] =>
    cases named : Concept.prepareName textCase (contents phrase).text with
    | none =>
      rw [LinkParser.run_getConcept_of_unnamed one known named] at run
      cases run
    | some conceptName =>
      obtain ⟨concept, t, ended, -⟩ := LinkParser.run_getConcept_of_orphan one known named
      rw [ended] at run
      cases run

/-- A name is found in as many phrases of a sentence as its word is. -/
theorem length_findPhrase {name : String} (spelled : ∀ c ∈ name.toList, c ≠ '_' ∧ ' ' < c)
    (contents : PhraseRef → PhraseContent) (sentence : Sentence) :
    (LinkParser.findPhrase textCase contents name sentence).length =
      countFound textCase (textCase.toLowerCase name) (sentence.map contents) := by
  rw [LinkParser.findPhrase, replaceChar_eq_self fun c member => (spelled c member).1,
    trim_eq_self fun c member => (spelled c member).2, countFound, List.countP_map,
    List.countP_eq_length_filter]
  rfl

/-- In a sentence of the phrases of a tree, the name of a node is found as often as the node
has a part in them. -/
theorem WellNamed.length_findPhrase {tree : FeatureNode} (wellNamed : WellNamed textCase tree)
    {phrases : List PhraseContent} (run : processNodeRec tree = .ok phrases)
    {contents : PhraseRef → PhraseContent} {sentence : Sentence}
    (composed : (sentence.map contents).Perm phrases)
    {node : FeatureNode.Visited} (member : node ∈ tree.visited) {name : String}
    (named : LinkParser.nameOf node.features = some name) :
    (LinkParser.findPhrase textCase contents name sentence).length = node.multiplicity := by
  have inside : name ∈ tree.names := List.mem_filterMap.mpr ⟨node, member, named⟩
  have spelled := wellNamed.spelled name inside
  have plain : IsPlain textCase (textCase.toLowerCase name) := by
    constructor
    · rw [textCase.blank_mem_toLowerCase]
      exact fun blank => absurd (spelled ' ' blank).2 (by decide)
    · rw [textCase.toLowerCase_toLowerCase]
      exact wellNamed.notOf name inside
  have once : tree.visited.countP (·.isNamed textCase (textCase.toLowerCase name)) ≤ 1 := by
    rw [countP_isNamed]
    exact List.nodup_iff_count_le_one.mp wellNamed.distinct _
  have hit : node.isNamed textCase (textCase.toLowerCase name) := by
    rw [FeatureNode.Visited.isNamed, named, textCase.toLowerCase_toLowerCase]
    simp
  have underscore : ∀ node ∈ tree.visited, ∀ name,
      LinkParser.nameOf node.features = some name → '_' ∉ name.toList := by
    intro node member name named present
    exact (wellNamed.spelled name (List.mem_filterMap.mpr ⟨node, member, named⟩) '_' present).1 rfl
  rw [ThinkingUnderstanding.length_findPhrase spelled, countFound, composed.countP_eq,
    ← countFound, countFound_processNodeRec plain once underscore run, sum_parts_eq once member hit]

/-- The splitter and the link parser agree on a tree exactly when every node has a name and
an index, and no node has an `of` beside another relation. -/
theorem agree_iff (textCase : TextCase) (tree : FeatureNode)
    (wellNamed : WellNamed textCase tree) :
    Agree textCase tree ↔
      (∀ node ∈ tree.visited, node.IsSplittable) ∧ ∀ node ∈ tree.visited, ¬ node.Mixed := by
  constructor
  · rintro ⟨phrases, run, found⟩
    have splittable := exists_processNodeRec_eq_ok_iff.mp ⟨phrases, run⟩
    refine ⟨splittable, fun node member => ?_⟩
    obtain ⟨⟨name, named⟩, -⟩ := splittable node member
    have named := nameOf_of_getName named
    -- a sentence in which the phrases are numbered
    have composed : ((List.range phrases.length).map
        fun i => phrases.getD i (.ofWord "" 0)).Perm phrases := by
      apply List.Perm.of_eq
      apply List.ext_getElem
      · simp
      · intro i _ inside
        simp [inside]
    rw [← multiplicity_eq_one_iff, ← wellNamed.length_findPhrase run composed member named]
    exact (found _ _ composed name (List.mem_filterMap.mpr ⟨node, member, named⟩)).1
  · rintro ⟨splittable, unmixed⟩
    obtain ⟨phrases, run⟩ := exists_processNodeRec_eq_ok_iff.mpr splittable
    refine ⟨phrases, run, fun contents sentence composed name inside => ?_⟩
    obtain ⟨node, member, named⟩ := List.mem_filterMap.mp inside
    have one : (LinkParser.findPhrase textCase contents name sentence).length = 1 := by
      rw [wellNamed.length_findPhrase run composed member named]
      exact multiplicity_eq_one_iff.mpr (unmixed node member)
    obtain ⟨phrase, found⟩ := List.length_eq_one_iff.mp one
    exact ⟨one, run_getConcept_ne_unexpected found⟩

/-! ### A node with an `of` and a subject -/

/-- A node with the given name and relations. -/
def namedNode (name : String) (links : List (String × FeatureNode)) : FeatureNode :=
  .node { name := some name } links none

/-- "The capital of France is Paris". -/
def capitalIsParis : FeatureNode :=
  namedNode "be" [("_subj", namedNode "capital" [("of", namedNode "France" [])]),
    ("_obj", namedNode "Paris" [])]

theorem capitalIsParis_agrees : Agree .ascii capitalIsParis := by
  have names : capitalIsParis.names = ["be", "capital", "France", "Paris"] := by decide +kernel
  have wellNamed : WellNamed .ascii capitalIsParis := by
    refine ⟨by decide +kernel, ?_, by decide +kernel⟩
    rw [names]
    simp
  apply (agree_iff .ascii capitalIsParis wellNamed).mpr
  exact ⟨exists_processNodeRec_eq_ok_iff.mp ⟨_, rfl⟩, by decide +kernel⟩

/-- "The owner of a house is a man", with the name of the owner at the root. -/
def ownerOfHouse : FeatureNode :=
  namedNode "owner" [("_subj", namedNode "man" []), ("of", namedNode "house" [])]

/-- The root is in the compound and is a phrase of its own, so it is found twice. -/
theorem mixed_node_found_twice : WellNamed .ascii ownerOfHouse ∧ ¬ Agree .ascii ownerOfHouse := by
  constructor
  · have names : ownerOfHouse.names = ["owner", "man", "house"] := by decide +kernel
    refine ⟨by decide +kernel, ?_, by decide +kernel⟩
    rw [names]
    simp
  · rintro ⟨phrases, run, found⟩
    let owner := ofWord "owner" 0
    let compound := ofWords [owner, ofWord "of" 0, ofWord "house" 0] 0
    have made : processNodeRec ownerOfHouse = .ok [owner, compound, ofWord "man" 0] := rfl
    obtain rfl := Except.ok.inj (made.symm.trans run)
    let contents := fun p : PhraseRef => [owner, compound].getD p (ofWord "man" 0)
    have one := (found contents [0, 1, 2] (.refl _) "owner" (by decide +kernel)).1
    revert one
    decide +kernel

end ThinkingUnderstanding
