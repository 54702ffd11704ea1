import ThinkingUnderstanding.Parsing.LinksOnce

/-!
# Are all parsing problems reported?

`getConcept` makes an `Error` when the phrase of a node has no concept, and when it has more
than one. Of these `processSentences` should put every one into the errors of the context,
and it should process all nodes in spite of them.

The `Error` made for an orphan is dropped at the node itself, since its concept is there. An
`Error` for more than one concept is passed back to the caller, which leaves the relation out
and goes on; only `processSentences` keeps it, so at the root of a tree it is reported, but
then nothing below the root is processed. What is reported, then, is one problem only.

## Main definitions

* `ProblemsReported` — every error made is reported, and every node is processed
* `IsUntroubled` — a sentence without problems, or whose only node is ambiguous

## Main results

* `respects_processNode` — what a walk records
* `problemsReported_iff` — when all problems are reported
-/

namespace ThinkingUnderstanding

namespace LinkParser

open Semantics

variable (platform : Platform) (textCase : TextCase) (contents : PhraseRef → PhraseContent)
  (sentence : Sentence)

/-- What is recorded between two states of a walk among the given nodes. Only these are
asked for and have errors made for them; when no error has been made, all phrases are as
they were and the nodes asked for had their concepts; and when all nodes have their concepts,
no error is made. -/
structure Watched (nodes : List NodeFeatures) (s t : ParserState) : Prop where
  recorded : ∃ asked made, t.asked = s.asked ++ asked ∧ t.made = s.made ++ made ∧
    (∀ node ∈ asked, node ∈ nodes) ∧ (∀ e ∈ made, e.node ∈ nodes.map NodeFeatures.object) ∧
    (made = [] → t.heap.phrases = s.heap.phrases ∧
      ∀ node ∈ asked, IsSettled textCase contents sentence s node) ∧
    ((∀ node ∈ nodes, IsSettled textCase contents sentence s node) → made = [])
  errors : t.errors = s.errors

variable {platform textCase contents sentence} {s m t : ParserState}
  {nodes : List NodeFeatures}

/-- Whether nodes have their concepts depends on the phrases only. -/
theorem isSettled_congr {node : NodeFeatures} (same : t.heap.phrases = s.heap.phrases) :
    IsSettled textCase contents sentence t node ↔
      IsSettled textCase contents sentence s node := by
  rw [isSettled_iff, isSettled_iff]
  simp only [Heap.phrase, same]

/-- A change of anything but the phrases and the records. -/
theorem watched_of_same (phrases : t.heap.phrases = s.heap.phrases) (asked : t.asked = s.asked)
    (made : t.made = s.made) (errors : t.errors = s.errors) :
    Watched textCase contents sentence nodes s t where
  recorded := ⟨[], [], by rw [asked, List.append_nil], by rw [made, List.append_nil],
    List.forall_mem_nil _, List.forall_mem_nil _, fun _ => ⟨phrases, List.forall_mem_nil _⟩,
    fun _ => rfl⟩
  errors := errors

theorem Watched.trans (first : Watched textCase contents sentence nodes s m)
    (second : Watched textCase contents sentence nodes m t) :
    Watched textCase contents sentence nodes s t where
  recorded := by
    obtain ⟨asked, made, hasked, hmade, inside, owned, quiet, none⟩ := first.recorded
    obtain ⟨asked', made', hasked', hmade', inside', owned', quiet', none'⟩ := second.recorded
    refine ⟨asked ++ asked', made ++ made', ?_, ?_, ?_, ?_, ?_, ?_⟩
    · rw [hasked', hasked, List.append_assoc]
    · rw [hmade', hmade, List.append_assoc]
    · exact List.forall_mem_append.mpr ⟨inside, inside'⟩
    · exact List.forall_mem_append.mpr ⟨owned, owned'⟩
    · intro nothing
      obtain ⟨nothing, nothing'⟩ := List.append_eq_nil_iff.mp nothing
      obtain ⟨same, settled⟩ := quiet nothing
      obtain ⟨same', settled'⟩ := quiet' nothing'
      refine ⟨same'.trans same, List.forall_mem_append.mpr ⟨settled, fun node member => ?_⟩⟩
      exact (isSettled_congr same).mp (settled' node member)
    · intro settled
      have nothing := none settled
      have same := (quiet nothing).1
      have nothing' := none' fun node member => (isSettled_congr same).mpr (settled node member)
      rw [nothing, nothing', List.append_nil]
  errors := second.errors.trans first.errors

instance : IsPreorder ParserState (Watched textCase contents sentence nodes) where
  refl _ := watched_of_same rfl rfl rfl rfl
  trans _ _ _ := Watched.trans

theorem respects_rewrapping {α : Type} {R : ParserState → ParserState → Prop} {start : String}
    {program : ParserProgram α} (respects : Respects R program) :
    Respects R (rewrapping start program) := by
  intro s
  have here := respects s
  change R s (finalState (EStateM.adaptExcept _ program s))
  rw [EStateM.adaptExcept]
  change R s (finalState (program s)) at here
  cases run : program s <;> (rw [run] at here; exact here)

/-- Looking a node up records it, with an error unless it has its concept. -/
theorem respects_lookUp {features : NodeFeatures} (member : features ∈ nodes) {name : String}
    (named : nameOf features = some name) :
    Respects (Watched textCase contents sentence nodes)
      (lookUp textCase contents features name sentence) := by
  intro s
  rcases found : findPhrase textCase contents name sentence with _ | ⟨phrase, _ | ⟨_, _⟩⟩
  · rw [lookUp, EStateM.run_bind, run_getConcept_of_no_phrase found]
    exact watched_of_same rfl rfl rfl rfl
  · have at' := phraseOf_eq_some_iff.mpr ⟨name, named, found⟩
    -- a node with an error had not its concept
    have troubled : (s.heap.phrase phrase).concepts.length ≠ 1 →
        ¬ ∀ node ∈ nodes, IsSettled textCase contents sentence s node := by
      intro other settled
      obtain ⟨phrase', concept, at'', one⟩ := isSettled_iff.mp (settled features member)
      obtain rfl := Option.some.inj (at'.symm.trans at'')
      rw [one] at other
      exact other rfl
    rcases known : (s.heap.phrase phrase).concepts with _ | ⟨concept, _ | ⟨_, _⟩⟩
    · cases name' : Concept.prepareName textCase (contents phrase).text with
      | none =>
        rw [lookUp, EStateM.run_bind, run_getConcept_of_unnamed found known name']
        exact watched_of_same rfl rfl rfl rfl
      | some conceptName =>
        obtain ⟨concept, t, run, orphan⟩ := run_getConcept_of_orphan found known name'
        rw [run_lookUp features run]
        let error : ParseError := ⟨features.object, phrase,
          "$No_concepts_found_for_phrase: " ++ (contents phrase).phrase textCase⟩
        refine ⟨⟨[features], [error], ?_, ?_, ?_, ?_, fun none => ?_, fun settled => ?_⟩,
          orphan.errors⟩
        · exact congrArg (· ++ [features]) orphan.asked
        · exact congrArg (· ++ [error]) orphan.made
        · exact List.forall_mem_singleton.mpr member
        · exact List.forall_mem_singleton.mpr (List.mem_map_of_mem member)
        · cases none
        · exact absurd settled (troubled (by rw [known]; simp))
    · rw [run_lookUp features (run_getConcept_of_concept found known)]
      refine ⟨⟨[features], [], rfl, rfl, ?_, List.forall_mem_nil _, fun _ => ⟨rfl, ?_⟩,
        fun _ => rfl⟩, rfl⟩
      · exact List.forall_mem_singleton.mpr member
      · exact List.forall_mem_singleton.mpr (isSettled_iff.mpr ⟨phrase, concept, at', known⟩)
    · rw [run_lookUp features (run_getConcept_of_ambiguous found known)]
      refine ⟨⟨[features], [_], rfl, rfl, ?_, ?_, fun none => ?_, fun settled => ?_⟩, rfl⟩
      · exact List.forall_mem_singleton.mpr member
      · exact List.forall_mem_singleton.mpr (List.mem_map_of_mem member)
      · cases none
      · exact absurd settled (troubled (by rw [known]; simp))
  · rw [lookUp, EStateM.run_bind, run_getConcept_of_phrases found]
    exact watched_of_same rfl rfl rfl rfl

/-- A change of the heap that leaves the phrases alone. -/
theorem respects_onHeap {α : Type} {f : Heap → α × Heap}
    (same : ∀ heap, (f heap).2.phrases = heap.phrases) :
    Respects (Watched textCase contents sentence nodes) (onHeap f) :=
  fun s => watched_of_same (same s.heap) rfl rfl rfl

theorem respects_createConceptLink (source destination : ConceptRef) (name : String) :
    Respects (Watched textCase contents sentence nodes)
      (createConceptLink source destination name) := by
  rw [createConceptLink]
  cases KnowledgeURI.ofRaw name with
  | none => exact respects_throw _
  | some uri =>
    apply Respects.bind (respects_onHeap fun _ => rfl)
    exact fun _ => respects_onHeap fun _ => rfl

section Links

variable {links : List (String × ParserProgram NodeResult)}
  (below : ∀ link ∈ filteredFeatures links,
    Respects (Watched textCase contents sentence nodes) link.2)

include below

theorem respects_processLink (source : ConceptRef) :
    Respects (Watched textCase contents sentence nodes) (processLink links source) := by
  rw [processLink]
  apply respects_rewrapping
  split
  case isFalse => exact respects_pure []
  case isTrue =>
    -- the links are filtered by a first walk, and those kept are walked into again
    have leads : ∀ link ∈ filteredFeatures links,
        Respects (Watched textCase contents sentence nodes) (hasDestination link) := by
      intro link member
      apply (below link member).bind
      rintro ⟨_ | concept, _ | error⟩
      · exact respects_throw _
      · exact respects_pure false
      · exact respects_pure true
      · exact respects_throw _
    apply (Respects.filterM _ leads).bind_of_ensures (ensures_filterM _)
    intro _ kept m inside
    refine Respects.mapM kept (fun link member => ?_) m
    apply (below link (inside link member)).bind
    rintro ⟨_ | concept, _ | error⟩
    · exact respects_throw _
    · exact respects_throw _
    · exact respects_createConceptLink source concept _
    · exact respects_throw _

theorem respects_addLinks {next : Option (ParserProgram NodeResult)}
    (continued : ∀ process ∈ next, Respects (Watched textCase contents sentence nodes) process)
    (concept : ConceptRef) :
    Respects (Watched textCase contents sentence nodes) (addLinks links next concept) := by
  rw [addLinks]
  apply (respects_processLink below concept).bind
  intro processedLinks
  apply (respects_onHeap fun _ => rfl).bind
  intro _
  have followed : Respects (Watched textCase contents sentence nodes) (processNext next) := by
    cases next with
    | none => exact respects_pure ()
    | some process => exact (continued process rfl).bind fun _ => respects_pure ()
  exact followed.bind fun _ => respects_pure concept

end Links

/-- Texts are no part of what is recorded. -/
theorem respects_textOf (concept : ConceptRef) :
    Respects (Watched textCase contents sentence nodes) (textOf platform concept) := by
  intro s
  have asks : Asks platform s.heap (s.heap.phraseURIs concept) (s.heap.conceptText concept)
      (Concept.toString platform ParseFailure.uriSyntaxException concept) := asks_toString concept
  have kept := asks.textsKept
  change Watched textCase contents sentence nodes s (finalState (onTexts _ s))
  rw [onTexts]
  cases run : (Concept.toString platform ParseFailure.uriSyntaxException concept).run s.heap <;>
    · rw [run] at kept
      have same := congrArg Heap.phrases kept.objects
      exact watched_of_same same rfl rfl rfl

theorem respects_conclude (concept updated : ConceptRef) (error : Option ParseError) :
    Respects (Watched textCase contents sentence nodes)
      (conclude platform concept error updated) := by
  cases error with
  | none => exact respects_pure _
  | some e =>
    exact (respects_textOf updated).bind fun _ => (respects_textOf concept).bind fun _ =>
      respects_pure _

variable (platform textCase contents sentence) in
/-- What a walk asks for and has errors made for is among the nodes of the tree. -/
theorem respects_processNode (tree : FeatureNode) (inside : ∀ node ∈ nodesOf tree, node ∈ nodes) :
    Respects (Watched textCase contents sentence nodes)
      (processNode platform textCase contents sentence tree) := by
  induction tree using FeatureNode.induction with
  | step features links next linked continued =>
    rw [nodesOf_node, List.forall_mem_cons, List.forall_mem_append] at inside
    obtain ⟨here, below, after⟩ := inside
    rw [processNode, FeatureNode.fold_node, ← processNode, processNodeWith]
    apply respects_rewrapping
    cases named : nameOf features with
    | none => exact respects_throw _
    | some name =>
      apply (respects_lookUp here named).bind
      rintro ⟨_ | concept, error⟩
      · cases error with
        | none => exact respects_throw _
        | some e => exact respects_pure _
      · refine (respects_addLinks ?_ ?_ concept).bind fun updated => respects_conclude _ _ _
        · rw [FeatureNode.filteredFeatures_map, List.forall_mem_map]
          intro link member
          apply linked link (List.mem_of_mem_filter member)
          exact fun node inside => below node (List.mem_flatMap.mpr ⟨link, member, inside⟩)
        · rintro process member
          obtain ⟨feature, rfl, rfl⟩ := Option.mem_map.mp member
          exact continued feature rfl after

/-! ### What a walk returns -/

variable (textCase contents sentence) in
/-- The node is found in one phrase, which has more than one concept. -/
def IsAmbiguous (s : ParserState) (node : NodeFeatures) : Prop :=
  ∃ phrase, phraseOf textCase contents sentence node = some phrase ∧
    2 ≤ (s.heap.phrase phrase).concepts.length

theorem run_rewrapping_eq_ok_iff {α : Type} {start : String} {program : ParserProgram α} {a : α} :
    (rewrapping start program).run s = .ok a t ↔ program.run s = .ok a t := by
  change EStateM.adaptExcept _ program s = _ ↔ program s = _
  rw [EStateM.adaptExcept]
  cases program s with
  | ok _ _ => rfl
  | error _ _ => simp

/-- Looking an ambiguous node up makes an error and changes nothing. -/
theorem run_lookUp_of_ambiguous {features : NodeFeatures} {name : String}
    (named : nameOf features = some name)
    (ambiguous : IsAmbiguous textCase contents sentence s features) :
    ∃ e : ParseError, e.node = features.object ∧
      (lookUp textCase contents features name sentence).run s =
        .ok (none, some e) (ParserState.recorded s features (some e)) := by
  obtain ⟨phrase, at', many⟩ := ambiguous
  obtain ⟨name', named', found⟩ := phraseOf_eq_some_iff.mp at'
  obtain rfl := Option.some.inj (named.symm.trans named')
  match known : (s.heap.phrase phrase).concepts with
  | [] => simp [known] at many
  | [_] => simp [known] at many
  | _ :: _ :: _ =>
    exact ⟨_, rfl, run_lookUp features (run_getConcept_of_ambiguous found known)⟩

/-- A node that is looked up to no concept is ambiguous. -/
theorem isAmbiguous_of_run_lookUp {features : NodeFeatures} {name : String}
    (named : nameOf features = some name) {error : Option ParseError}
    (run : (lookUp textCase contents features name sentence).run s = .ok (none, error) t) :
    IsAmbiguous textCase contents sentence s features := by
  obtain ⟨⟨phrase, found, message⟩, m, run, ended⟩ := run_bind_eq_ok_iff.mp run
  -- only a single phrase with more than one concept ends without a concept
  match one : findPhrase textCase contents name sentence with
  | [] =>
    rw [run_getConcept_of_no_phrase one] at run
    cases run
  | _ :: _ :: _ =>
    rw [run_getConcept_of_phrases one] at run
    cases run
  | [phrase'] =>
    refine ⟨phrase', phraseOf_eq_some_iff.mpr ⟨name, named, one⟩, ?_⟩
    match known : (s.heap.phrase phrase').concepts with
    | [concept] =>
      rw [run_getConcept_of_concept one known] at run
      cases run
      cases ended
    | _ :: _ :: _ => simp
    | [] =>
      cases name' : Concept.prepareName textCase (contents phrase').text with
      | none =>
        rw [run_getConcept_of_unnamed one known name'] at run
        cases run
      | some conceptName =>
        obtain ⟨concept, t, run', -⟩ := run_getConcept_of_orphan one known name'
        rw [run'] at run
        cases run
        cases ended

/-- The texts of an orphan are not looked at. -/
theorem eq_of_run_conclude {concept updated : ConceptRef} {error : Option ParseError}
    {result : NodeResult} (run : (conclude platform concept error updated).run s = .ok result t) :
    result = (some updated, none) := by
  cases error with
  | none =>
    cases run
    rfl
  | some e =>
    obtain ⟨_, _, -, run⟩ := run_bind_eq_ok_iff.mp run
    obtain ⟨_, _, -, run⟩ := run_bind_eq_ok_iff.mp run
    cases run
    rfl

/-- A walk ends with a concept, unless its root is ambiguous. -/
theorem processNode_cases {tree : FeatureNode} {result : NodeResult}
    (run : (processNode platform textCase contents sentence tree).run s = .ok result t) :
    (∃ concept, result = (some concept, none)) ∨
      IsAmbiguous textCase contents sentence s tree.root := by
  obtain ⟨features, links, next⟩ := tree
  rw [processNode, FeatureNode.fold_node, processNodeWith, run_rewrapping_eq_ok_iff] at run
  cases named : nameOf features with
  | none =>
    rw [named] at run
    cases run
  | some name =>
    rw [named] at run
    obtain ⟨⟨_ | concept, error⟩, m, looked, run⟩ := run_bind_eq_ok_iff.mp run
    · exact Or.inr (isAmbiguous_of_run_lookUp named looked)
    · obtain ⟨updated, m', -, ended⟩ := run_bind_eq_ok_iff.mp run
      exact Or.inl ⟨updated, eq_of_run_conclude ended⟩

/-- Nothing below an ambiguous root is processed. -/
theorem run_processNode_of_ambiguous {tree : FeatureNode}
    (ambiguous : IsAmbiguous textCase contents sentence s tree.root) :
    ∃ e : ParseError, e.node = tree.root.object ∧
      (processNode platform textCase contents sentence tree).run s =
        .ok (none, some e) (ParserState.recorded s tree.root (some e)) := by
  obtain ⟨features, links, next⟩ := tree
  have ⟨phrase, at', _⟩ := ambiguous
  obtain ⟨name, named, -⟩ := phraseOf_eq_some_iff.mp at'
  obtain ⟨e, made_for, run⟩ := run_lookUp_of_ambiguous named ambiguous
  refine ⟨e, made_for, ?_⟩
  rw [processNode, FeatureNode.fold_node, processNodeWith, run_rewrapping_eq_ok_iff]
  rw [show nameOf features = some name from named]
  exact run_bind_eq_ok_iff.mpr ⟨_, _, run, rfl⟩

end LinkParser

open LinkParser Semantics

/-! ### The sentences of a context -/

section Sentences

/-- A sentence with what it has been parsed to. -/
abbrev ParsedSentence := Sentence × Option FeatureNode

/-- The nodes of the tree of a sentence. -/
def ParsedSentence.nodes (x : ParsedSentence) : List NodeFeatures := x.2.elim [] nodesOf

variable (platform : Platform) (textCase : TextCase) (contents : PhraseRef → PhraseContent)

/-- Every error made is reported, and every node is asked for. -/
def IsComplete (nodes asked : List NodeFeatures) (made errors : List ParseError) : Prop :=
  (∀ e ∈ made, e ∈ errors) ∧ ∀ node ∈ nodes, node ∈ asked

/-- The sentences are all processed; every error made on the way is then among the errors of
the context, and every node of every tree has been asked for. -/
def ProblemsReported (s : ParserState) (sentences : List ParsedSentence) : Prop :=
  ∃ result t asked made errors,
    (processSentences platform textCase contents sentences).run s = .ok result t ∧
      t.asked = s.asked ++ asked ∧ t.made = s.made ++ made ∧ t.errors = s.errors ++ errors ∧
        IsComplete (sentences.flatMap ParsedSentence.nodes) asked made errors

/-- The sentence has been parsed, and every node has its concept, or else the tree is a
single node that is ambiguous. -/
def IsUntroubled (s : ParserState) (x : ParsedSentence) : Prop :=
  ∃ tree, x.2 = some tree ∧
    ((∀ node ∈ nodesOf tree, IsSettled textCase contents x.1 s node) ∨
      nodesOf tree = [tree.root] ∧ IsAmbiguous textCase contents x.1 s tree.root)

/-- What has been recorded for some nodes between two states. -/
structure Account (nodes : List NodeFeatures) (s t : ParserState) (asked : List NodeFeatures)
    (made errors : List ParseError) : Prop where
  asked_eq : t.asked = s.asked ++ asked
  made_eq : t.made = s.made ++ made
  errors_eq : t.errors = s.errors ++ errors
  inside : ∀ node ∈ asked, node ∈ nodes
  owned : ∀ e ∈ made, e.node ∈ nodes.map NodeFeatures.object
  reported : ∀ e ∈ errors, e ∈ made

variable {platform textCase contents} {s m t : ParserState}
  {nodes nodes' asked asked' : List NodeFeatures}
  {made made' errors errors' : List ParseError} {x : ParsedSentence}

theorem Account.append (first : Account nodes s m asked made errors)
    (second : Account nodes' m t asked' made' errors') :
    Account (nodes ++ nodes') s t (asked ++ asked') (made ++ made') (errors ++ errors') where
  asked_eq := by rw [second.asked_eq, first.asked_eq, List.append_assoc]
  made_eq := by rw [second.made_eq, first.made_eq, List.append_assoc]
  errors_eq := by rw [second.errors_eq, first.errors_eq, List.append_assoc]
  inside := by
    rw [List.forall_mem_append]
    exact ⟨fun node member => List.mem_append_left _ (first.inside node member),
      fun node member => List.mem_append_right _ (second.inside node member)⟩
  owned := by
    rw [List.map_append, List.forall_mem_append]
    exact ⟨fun e member => List.mem_append_left _ (first.owned e member),
      fun e member => List.mem_append_right _ (second.owned e member)⟩
  reported := by
    rw [List.forall_mem_append]
    exact ⟨fun e member => List.mem_append_left _ (first.reported e member),
      fun e member => List.mem_append_right _ (second.reported e member)⟩

theorem IsComplete.append (first : IsComplete nodes asked made errors)
    (second : IsComplete nodes' asked' made' errors') :
    IsComplete (nodes ++ nodes') (asked ++ asked') (made ++ made') (errors ++ errors') := by
  constructor
  · rw [List.forall_mem_append]
    exact ⟨fun e member => List.mem_append_left _ (first.1 e member),
      fun e member => List.mem_append_right _ (second.1 e member)⟩
  · rw [List.forall_mem_append]
    exact ⟨fun node member => List.mem_append_left _ (first.2 node member),
      fun node member => List.mem_append_right _ (second.2 node member)⟩

/-- Where the nodes of two parts are different objects, no part reports for the other. -/
theorem IsComplete.of_append (first : Account nodes s m asked made errors)
    (second : Account nodes' m t asked' made' errors')
    (apart : (nodes.map NodeFeatures.object).Disjoint (nodes'.map NodeFeatures.object))
    (complete : IsComplete (nodes ++ nodes') (asked ++ asked') (made ++ made') (errors ++ errors')) :
    IsComplete nodes asked made errors ∧ IsComplete nodes' asked' made' errors' := by
  obtain ⟨all, processed⟩ := complete
  rw [List.forall_mem_append] at all processed
  -- no node and no error belongs to both parts, as their objects differ
  have other : ∀ node ∈ nodes, node ∉ nodes' := fun node member member' =>
    apart (List.mem_map_of_mem member) (List.mem_map_of_mem member')
  constructor
  · constructor
    · intro e member
      rcases List.mem_append.mp (all.1 e member) with inside | inside
      · exact inside
      · exact absurd (second.owned e (second.reported e inside)) (apart (first.owned e member))
    · intro node member
      rcases List.mem_append.mp (processed.1 node member) with inside | inside
      · exact inside
      · exact absurd (second.inside node inside) (other node member)
  · constructor
    · intro e member
      rcases List.mem_append.mp (all.2 e member) with inside | inside
      · exact absurd (second.owned e member) (apart (first.owned e (first.reported e inside)))
      · exact inside
    · intro node member
      rcases List.mem_append.mp (processed.2 node member) with inside | inside
      · exact absurd member (other node (first.inside node inside))
      · exact inside

/-- Whether a sentence is without problems depends on the phrases only. -/
theorem isUntroubled_congr (same : t.heap.phrases = s.heap.phrases) :
    IsUntroubled textCase contents t x ↔ IsUntroubled textCase contents s x := by
  simp only [IsUntroubled, isSettled_congr same, IsAmbiguous, Heap.phrase, same]

theorem root_mem_nodesOf (tree : FeatureNode) : tree.root ∈ nodesOf tree := by
  obtain ⟨features, links, next⟩ := tree
  exact nodesOf_node features links next ▸ List.mem_cons_self

/-- What the walk of a sentence records, when it ends with a concept. -/
theorem account_of_walk {sentence : Sentence} {tree : FeatureNode} {concept : ConceptRef}
    (walk : (processNode platform textCase contents sentence tree).run s = .ok (some concept, none) t) :
    ∃ asked made, Account (nodesOf tree) s t asked made [] ∧
      (made = [] → t.heap.phrases = s.heap.phrases ∧
        ∀ node ∈ asked, IsSettled textCase contents sentence s node) ∧
      ((∀ node ∈ nodesOf tree, IsSettled textCase contents sentence s node) → made = []) := by
  have watched :=
    respects_processNode platform textCase contents sentence tree (fun _ member => member) s
  rw [walk] at watched
  obtain ⟨asked, made, hasked, hmade, inside, owned, quiet⟩ := watched.recorded
  refine ⟨asked, made, ⟨hasked, hmade, ?_, inside, owned, List.forall_mem_nil _⟩, quiet⟩
  rw [List.append_nil]
  exact watched.errors

/-- What a sentence with an ambiguous root records. -/
theorem account_of_isAmbiguous {sentence : Sentence} {tree : FeatureNode}
    (ambiguous : IsAmbiguous textCase contents sentence s tree.root) :
    ∃ t e, (processSentence platform textCase contents sentence (some tree)).run s = .ok () t ∧
      Account (nodesOf tree) s t [tree.root] [e] [e] ∧ t.heap = s.heap := by
  obtain ⟨e, made_for, run⟩ := run_processNode_of_ambiguous ambiguous
  refine ⟨_, e, run_bind_eq_ok_iff.mpr ⟨_, _, run, rfl⟩, ?_, rfl⟩
  refine ⟨rfl, rfl, rfl, ?_, ?_, fun _ member => member⟩
  · exact List.forall_mem_singleton.mpr (root_mem_nodesOf tree)
  · rw [List.forall_mem_singleton, made_for]
    exact List.mem_map_of_mem (root_mem_nodesOf tree)

/-- A sentence without problems is processed, and its account is complete. -/
theorem account_of_isUntroubled (untroubled : IsUntroubled textCase contents s x) :
    ∃ t asked made errors, (processSentence platform textCase contents x.1 x.2).run s = .ok () t ∧
      Account x.nodes s t asked made errors ∧ IsComplete x.nodes asked made errors ∧
        t.heap.phrases = s.heap.phrases := by
  obtain ⟨sentence, parse⟩ := x
  obtain ⟨tree, rfl, settled | ⟨alone, ambiguous⟩⟩ := untroubled
  · rcases handlesAt_processNode tree s fun node member => (settled node member).isFound with
      ⟨-, result, t, run, -, walked⟩ | ⟨unnamed, -⟩
    · obtain ⟨concept, rfl, -⟩ := walked.found
      obtain ⟨asked, made, account, quiet, none⟩ := account_of_walk run
      have nothing := none settled
      subst nothing
      refine ⟨t, asked, [], [], run_bind_eq_ok_iff.mpr ⟨_, _, run, rfl⟩, account,
        ⟨List.forall_mem_nil _, fun node member => ?_⟩, (quiet rfl).1⟩
      obtain ⟨asked', has, inside⟩ := walked.asked node member
      rw [account.asked_eq] at has
      exact List.append_cancel_left has ▸ inside
    · exact absurd (fun node member => (settled node member).canGetConcept) unnamed
  · obtain ⟨t, e, run, account, same⟩ := account_of_isAmbiguous ambiguous
    refine ⟨t, [tree.root], [e], [e], run, account, ⟨fun _ member => member, ?_⟩, by rw [same]⟩
    exact fun node member => alone ▸ member

/-- What a sentence records. When that is complete, the sentence is without problems, and no
phrase has got a concept. -/
theorem account_of_processSentence
    (run : (processSentence platform textCase contents x.1 x.2).run s = .ok () t) :
    ∃ asked made errors, Account x.nodes s t asked made errors ∧
      ((x.nodes.map NodeFeatures.object).Nodup → IsComplete x.nodes asked made errors →
        IsUntroubled textCase contents s x ∧ t.heap.phrases = s.heap.phrases) := by
  obtain ⟨sentence, _ | tree⟩ := x
  · cases run
  obtain ⟨result, m, walk, ended⟩ := run_bind_eq_ok_iff.mp run
  rcases processNode_cases walk with ⟨concept, rfl⟩ | ambiguous
  · cases ended
    obtain ⟨asked, made, account, quiet, -⟩ := account_of_walk walk
    refine ⟨asked, made, [], account, fun _ complete => ?_⟩
    have nothing : made = [] := List.eq_nil_iff_forall_not_mem.mpr fun e member =>
      List.not_mem_nil (complete.1 e member)
    obtain ⟨same, settled⟩ := quiet nothing
    exact ⟨⟨tree, rfl, Or.inl fun node member => settled node (complete.2 node member)⟩, same⟩
  · obtain ⟨t', e, run', account, same⟩ := account_of_isAmbiguous ambiguous
    rw [run] at run'
    cases run'
    refine ⟨[tree.root], [e], [e], account, fun apart complete => ?_⟩
    refine ⟨⟨tree, rfl, Or.inr ⟨?_, ambiguous⟩⟩, by rw [same]⟩
    -- the nodes are different objects, and all of them are the root
    have single : nodesOf tree = List.replicate (nodesOf tree).length tree.root :=
      List.eq_replicate_of_mem fun node member => List.mem_singleton.mp (complete.2 node member)
    have different : (nodesOf tree).Nodup := List.Nodup.of_map _ apart
    rw [single, List.nodup_replicate] at different
    have some : 0 < (nodesOf tree).length := List.length_pos_of_mem (root_mem_nodesOf tree)
    rw [single, show (nodesOf tree).length = 1 by omega]
    rfl

/-- What processing the sentences of a context records. -/
theorem untroubled_of_isComplete {sentences : List ParsedSentence} {result : PUnit}
    (run : (forM sentences fun x => processSentence platform textCase contents x.1 x.2).run s =
      .ok result t) :
    ∃ asked made errors,
      Account (sentences.flatMap ParsedSentence.nodes) s t asked made errors ∧
        (((sentences.flatMap ParsedSentence.nodes).map NodeFeatures.object).Nodup →
          IsComplete (sentences.flatMap ParsedSentence.nodes) asked made errors →
            ∀ x ∈ sentences, IsUntroubled textCase contents s x) := by
  induction sentences generalizing s with
  | nil =>
    cases run
    refine ⟨[], [], [], ⟨?_, ?_, ?_, List.forall_mem_nil _, List.forall_mem_nil _,
      List.forall_mem_nil _⟩, fun _ _ => List.forall_mem_nil _⟩
    all_goals exact (List.append_nil _).symm
  | cons x sentences ih =>
    rw [List.forM_cons] at run
    obtain ⟨_, m, first, rest⟩ := run_bind_eq_ok_iff.mp run
    obtain ⟨asked, made, errors, account, settles⟩ := account_of_processSentence first
    obtain ⟨asked', made', errors', account', settles'⟩ := ih rest
    rw [List.flatMap_cons, List.map_append]
    refine ⟨_, _, _, account.append account', fun apart complete => ?_⟩
    obtain ⟨here, there, disjoint⟩ := List.nodup_append'.mp apart
    obtain ⟨complete, complete'⟩ := complete.of_append account account' disjoint
    obtain ⟨untroubled, same⟩ := settles here complete
    -- the later sentences have been judged in the state after the first one
    refine List.forall_mem_cons.mpr ⟨untroubled, fun x' member => ?_⟩
    exact (isUntroubled_congr same).mp (settles' there complete' x' member)

/-- Sentences without problems are all processed. -/
theorem isComplete_of_untroubled {sentences : List ParsedSentence}
    (untroubled : ∀ x ∈ sentences, IsUntroubled textCase contents s x) :
    ∃ t asked made errors,
      (forM sentences fun x => processSentence platform textCase contents x.1 x.2).run s =
        .ok PUnit.unit t ∧
      Account (sentences.flatMap ParsedSentence.nodes) s t asked made errors ∧
        IsComplete (sentences.flatMap ParsedSentence.nodes) asked made errors := by
  induction sentences generalizing s with
  | nil =>
    refine ⟨s, [], [], [], rfl, ⟨?_, ?_, ?_, List.forall_mem_nil _, List.forall_mem_nil _,
      List.forall_mem_nil _⟩, List.forall_mem_nil _, List.forall_mem_nil _⟩
    all_goals exact (List.append_nil _).symm
  | cons x sentences ih =>
    rw [List.forall_mem_cons] at untroubled
    obtain ⟨m, asked, made, errors, first, account, complete, same⟩ :=
      account_of_isUntroubled untroubled.1
    obtain ⟨t, asked', made', errors', rest, account', complete'⟩ :=
      @ih m fun x' member => (isUntroubled_congr same).mpr (untroubled.2 x' member)
    rw [List.forM_cons, List.flatMap_cons]
    exact ⟨t, _, _, _, run_bind_eq_ok_iff.mpr ⟨_, m, first, rest⟩, account.append account',
      complete.append complete'⟩

/-- When the nodes of all trees are different objects, all problems are reported and all
nodes processed exactly when there is at most one problem a sentence, at a root that has
nothing below it and more than one concept. -/
theorem problemsReported_iff (platform : Platform) (textCase : TextCase)
    (contents : PhraseRef → PhraseContent) (s : ParserState) (sentences : List ParsedSentence)
    (apart : ((sentences.flatMap ParsedSentence.nodes).map NodeFeatures.object).Nodup) :
    ProblemsReported platform textCase contents s sentences ↔
      ∀ x ∈ sentences, IsUntroubled textCase contents s x := by
  constructor
  · rintro ⟨result, t, asked, made, errors, run, hasked, hmade, herrors, complete⟩
    obtain ⟨_, m, run, ended⟩ := run_bind_eq_ok_iff.mp run
    cases ended
    obtain ⟨asked', made', errors', account, settles⟩ := untroubled_of_isComplete run
    obtain rfl := List.append_cancel_left (hasked.symm.trans account.asked_eq)
    obtain rfl := List.append_cancel_left (hmade.symm.trans account.made_eq)
    obtain rfl := List.append_cancel_left (herrors.symm.trans account.errors_eq)
    exact settles apart complete
  · intro untroubled
    obtain ⟨t, asked, made, errors, run, account, complete⟩ := isComplete_of_untroubled untroubled
    exact ⟨_, t, asked, made, errors, run_bind_eq_ok_iff.mpr ⟨_, t, run, rfl⟩, account.asked_eq,
      account.made_eq, account.errors_eq, complete⟩

/-! ### Problems at the root and below it -/

/-- Three words with a concept each, and "bank" with two. -/
def twoBanks : ParserState where
  heap := {
    phrases := .ofList [{ concepts := [0] }, { concepts := [1] }, { concepts := [2] },
      { concepts := [3, 4] }]
    concepts := .ofList [{}, {}, {}, {}, {}] }

/-- The words of "John likes Mary" and of "bank". -/
def bankWords : PhraseRef → PhraseContent :=
  fun p => [PhraseContent.ofWord "like" 0, .ofWord "John" 0, .ofWord "Mary" 0].getD p
    (.ofWord "bank" 0)

/-- The sentences "John likes Mary" and "Bank!". -/
def likesAndBank : List ParsedSentence :=
  [([0, 1, 2], some johnLikesMary), ([3], some (numberedNode 3 "bank" []))]

theorem likesAndBank_reported : ProblemsReported .plain .ascii bankWords twoBanks likesAndBank := by
  have settled : ∀ node ∈ nodesOf johnLikesMary,
      (conceptsAt .ascii bankWords [0, 1, 2] twoBanks node).length = 1 := by decide +kernel
  apply (problemsReported_iff .plain .ascii bankWords twoBanks likesAndBank (by decide +kernel)).mpr
  refine List.forall_mem_cons.mpr ⟨?_, List.forall_mem_singleton.mpr ?_⟩
  · exact ⟨_, rfl, Or.inl fun node member => isSettled_of_length (settled node member)⟩
  · refine ⟨_, rfl, Or.inr ⟨rfl, 3, ?_, le_rfl⟩⟩
    decide +kernel

/-- "John" has no concept and "Mary" has two. -/
def unknownJohn : ParserState where
  heap := {
    phrases := .ofList [{ concepts := [0] }, { concepts := [] }, { concepts := [1, 2] }]
    concepts := .ofList [{}, {}, {}] }

/-- An error is made for John and one for Mary, and neither is reported. -/
theorem problems_below_root_dropped :
    ¬ ProblemsReported .plain .ascii likeWords unknownJohn [([0, 1, 2], some johnLikesMary)] := by
  rintro ⟨result, t, asked, made, errors, run, -, hmade, herrors, all, -⟩
  have counts : (finalState ((processSentences .plain .ascii likeWords
        [([0, 1, 2], some johnLikesMary)]).run unknownJohn)).made.length = 2 ∧
      (finalState ((processSentences .plain .ascii likeWords
        [([0, 1, 2], some johnLikesMary)]).run unknownJohn)).errors.length = 0 := by
    decide +kernel
  rw [run, finalState_ok, hmade, herrors] at counts
  obtain ⟨two, none⟩ := counts
  cases made with
  | nil => cases two
  | cons e rest =>
    have reported := List.length_pos_of_mem (all e List.mem_cons_self)
    rw [List.length_append] at none
    omega

end Sentences

end ThinkingUnderstanding
