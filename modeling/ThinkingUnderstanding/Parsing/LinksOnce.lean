import ThinkingUnderstanding.Parsing.Walk

/-!
# Is every link added once?

Every relation of a tree should become one link between the concepts of its two nodes. The
walk processes the node at the other end of a relation twice, once to find out whether there
is a concept and once to get it, and each time all that is below the node is processed. So a
relation below another one becomes two links, one below that four, and so on.

## Main definitions

* `LinksOnce` — the links that a walk adds are those of the relations, each once

## Main results

* `linksOnce_iff` — when every link is added once
-/

namespace ThinkingUnderstanding

open LinkParser

variable (platform : Platform) (textCase : TextCase) (contents : PhraseRef → PhraseContent)
  (sentence : Sentence)

/-- The walk ends normally, and the links it adds to each concept are those for the relations
that start at it: one for each, and no other. -/
def LinksOnce (tree : FeatureNode) (s : ParserState) : Prop :=
  ∃ result t, (processNode platform textCase contents sentence tree).run s = .ok result t ∧
    ∀ c, ∃ added, (t.heap.concept c).conceptLinks = (s.heap.concept c).conceptLinks ++ added ∧
      (added.map (describe t.heap)).Perm
        ((tree.relations.map (expected textCase contents sentence t)).filter
          fun link => link.1 = c)

/-- The links that start at each concept determine how many there are. -/
theorem perm_of_filter_perm {first second : List (ConceptRef × String × ConceptRef)}
    (same : ∀ c, (first.filter fun link => link.1 = c).Perm
      (second.filter fun link => link.1 = c)) : first.Perm second := by
  rw [List.perm_iff_count]
  intro link
  have here := (same link.1).count_eq link
  rwa [List.count_filter (by simp), List.count_filter (by simp)] at here

variable {platform textCase contents sentence} {tree : FeatureNode} {s : ParserState}

/-- Where every link is added once, the walk goes through as many relations as there are. -/
theorem LinksOnce.named_and_length_eq
    (once : LinksOnce platform textCase contents sentence tree s)
    (found : ∀ node ∈ nodesOf tree, IsFound textCase contents sentence s node) :
    (∀ node ∈ nodesOf tree, CanGetConcept platform textCase contents sentence s node) ∧
      (tree.relationsPassed 2).length = tree.relations.length := by
  obtain ⟨result, t, run, links⟩ := once
  rcases handlesAt_processNode tree s found with
    ⟨named, result', t', run', -, walked⟩ | ⟨-, e, t', run'⟩
  · rw [run] at run'
    cases run'
    refine ⟨named, ?_⟩
    have same : ((tree.relationsPassed 2).map (expected textCase contents sentence t)).Perm
        (tree.relations.map (expected textCase contents sentence t)) := by
      apply perm_of_filter_perm
      intro c
      obtain ⟨added, has, described⟩ := links c
      obtain ⟨added', has', -, described'⟩ := walked.added.links c
      rw [has] at has'
      obtain rfl := List.append_cancel_left has'
      exact described'.symm.trans described
    simpa using same.length_eq
  · rw [run] at run'
    cases run'

/-- Of the trees whose nodes are each found in one phrase with at most one concept, every
link is added once exactly for those whose orphans can be named and printed and in which no
relation is below another. -/
theorem linksOnce_iff (platform : Platform) (textCase : TextCase)
    (contents : PhraseRef → PhraseContent) (sentence : Sentence) (tree : FeatureNode) (s : ParserState)
    (found : ∀ node ∈ nodesOf tree, IsFound textCase contents sentence s node) :
    LinksOnce platform textCase contents sentence tree s ↔
      (∀ node ∈ nodesOf tree, CanGetConcept platform textCase contents sentence s node) ∧
        tree.nestedRelations = [] := by
  constructor
  · intro once
    obtain ⟨named, same⟩ := once.named_and_length_eq found
    exact ⟨named, (FeatureNode.length_relationsPassed_two tree).2.mp same⟩
  · rintro ⟨named, flat⟩
    rcases handlesAt_processNode tree s found with
      ⟨-, result, t, run, -, walked⟩ | ⟨unnamed, -⟩
    · refine ⟨result, t, run, fun c => ?_⟩
      obtain ⟨added, has, -, described⟩ := walked.added.links c
      rw [FeatureNode.relationsPassed_two_eq flat] at described
      exact ⟨added, has, described⟩
    · exact absurd named unnamed

/-! ### Links one and two levels below the root -/

/-- A node with the given number, name and relations. -/
def numberedNode (object : ℕ) (name : String) (links : List (String × FeatureNode)) :
    FeatureNode :=
  .node { object, name := some name } links none

/-- Three words, each with a concept of the same number. -/
def threeConcepts : ParserState where
  heap := {
    phrases := .ofList [{ concepts := [0] }, { concepts := [1] }, { concepts := [2] }]
    concepts := .ofList [{}, {}, {}] }

/-- "John likes Mary": both relations start at the root. -/
def johnLikesMary : FeatureNode :=
  numberedNode 0 "like" [("_subj", numberedNode 1 "John" []), ("_obj", numberedNode 2 "Mary" [])]

/-- The words of the sentence. -/
def likeWords : PhraseRef → PhraseContent :=
  fun p => [PhraseContent.ofWord "like" 0, .ofWord "John" 0].getD p (.ofWord "Mary" 0)

theorem isSettled_of_length {node : NodeFeatures}
    (one : (conceptsAt textCase contents sentence s node).length = 1) :
    IsSettled textCase contents sentence s node := List.length_eq_one_iff.mp one

/-- The same, but no concept is known for the last word, whose phrase has a URI of a given name. -/
def unknownMary (name : String) : ParserState where
  heap := {
    phrases := .ofList [{ concepts := [0] }, { concepts := [1] }, { uri := 0 }]
    concepts := .ofList [{}, {}]
    uris := .ofList [{ name }] }

theorem johnLikesMary_linksOnce :
    LinksOnce .withoutEscapes .ascii likeWords [0, 1, 2] johnLikesMary (unknownMary "Mary") := by
  have found : ∀ node ∈ nodesOf johnLikesMary, ∃ phrase ∈ [0, 1, 2],
      phraseOf .ascii likeWords [0, 1, 2] node = some phrase := by decide +kernel
  have few : ∀ phrase ∈ [0, 1, 2],
      ((unknownMary "Mary").heap.phrase phrase).concepts.length ≤ 1 ∧
        (((unknownMary "Mary").heap.phrase phrase).concepts = [] →
          ((unknownMary "Mary").heap.phrase phrase).uri < 1) := by decide +kernel
  have can : ∀ phrase ∈ [0, 1, 2], ((unknownMary "Mary").heap.phrase phrase).concepts = [] →
      (Concept.prepareName .ascii (likeWords phrase).text).isSome ∧
        Platform.withoutEscapes.acceptsURI
          ((unknownMary "Mary").heap.uri ((unknownMary "Mary").heap.phrase phrase).uri).format := by
    decide +kernel
  refine (linksOnce_iff .withoutEscapes .ascii likeWords [0, 1, 2] johnLikesMary
    (unknownMary "Mary") fun node member => ?_).mpr ⟨fun node member => ?_, rfl⟩
  · obtain ⟨phrase, listed, at'⟩ := found node member
    exact ⟨phrase, at', few phrase listed⟩
  · obtain ⟨phrase, listed, at'⟩ := found node member
    intro phrase' at'' none
    obtain rfl := Option.some.inj (at'.symm.trans at'')
    exact ⟨(can phrase listed none).1, fun _ => (can phrase listed none).2⟩

/-- The text of the URI is refused where the name is `50%`. -/
example : Semantics.returned ((processNode .withoutEscapes .ascii likeWords [0, 1, 2]
    johnLikesMary).run (unknownMary "50%")) = none := by decide +kernel

/-- "The capital of France is": the relation `of` is below the subject. -/
def capitalIs : FeatureNode :=
  numberedNode 0 "be" [("_subj", numberedNode 1 "capital" [("of", numberedNode 2 "France" [])])]

/-- The words of the sentence. -/
def capitalWords : PhraseRef → PhraseContent :=
  fun p => [PhraseContent.ofWord "be" 0, .ofWord "capital" 0].getD p (.ofWord "France" 0)

/-- The capital gets two links to France. -/
theorem nested_link_added_twice :
    (∀ node ∈ nodesOf capitalIs, IsFound .ascii capitalWords [0, 1, 2] threeConcepts node) ∧
      ¬ LinksOnce .plain .ascii capitalWords [0, 1, 2] capitalIs threeConcepts := by
  have settled : ∀ node ∈ nodesOf capitalIs,
      (conceptsAt .ascii capitalWords [0, 1, 2] threeConcepts node).length = 1 := by
    decide +kernel
  have found := fun node member => (isSettled_of_length (settled node member)).isFound
  refine ⟨found, fun once => ?_⟩
  have same := (once.named_and_length_eq found).2
  revert same
  decide +kernel

end ThinkingUnderstanding
