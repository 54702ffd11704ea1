import ThinkingUnderstanding.Parsing.LinkParser

/-!
# A walk of the link parser

When every node of a tree is found in exactly one phrase, and no phrase has more than one
concept, the only obstacle to a walk is an orphan that no name can be made for, or whose text is
refused. The walk ends normally exactly when there is none; every node has been asked for then,
and the links that have been added are known: what is below a relation has been gone through
twice.

A part of a walk *handles* some nodes when this is so of it. Handling is closed under
sequencing, because what a phrase is connected with only ever changes from no concept to
one, and only for a phrase whose concept can be named and printed.

## Main definitions

* `Grows`, `Continues` — how one state of a walk leads to another
* `HandlesAt` — a part of a walk ends normally exactly when its nodes can get their concepts
* `Added` — the links that have been added, as the relations they are for

## Main results

* `HandlesAt.bind` — handling is closed under sequencing
* `handlesAt_processNode` — what a walk does
-/

namespace ThinkingUnderstanding

namespace LinkParser

open Semantics Math

variable (platform : Platform) (textCase : TextCase) (contents : PhraseRef → PhraseContent)
  (sentence : Sentence)

/-- The phrase of a node that is found in exactly one. -/
def phraseOf (node : NodeFeatures) : Option PhraseRef := do
  match findPhrase textCase contents (← nameOf node) sentence with
  | [phrase] => some phrase
  | _ => none

/-- A name can be made of the text of the phrase. -/
def IsNameable (phrase : PhraseRef) : Prop :=
  (Concept.prepareName textCase (contents phrase).text).isSome

/-- The node is found in one phrase, which has at most one concept. If it has none, the object
with its URI exists. -/
def IsFound (s : ParserState) (node : NodeFeatures) : Prop :=
  ∃ phrase, phraseOf textCase contents sentence node = some phrase ∧
    (s.heap.phrase phrase).concepts.length ≤ 1 ∧
    ((s.heap.phrase phrase).concepts = [] → (s.heap.phrase phrase).uri < s.heap.uris.size)

/-- If the phrase of the node has no concept, one can be named, and the text of the URI of the
phrase, under which the concept files it, is accepted. -/
def CanGetConcept (s : ParserState) (node : NodeFeatures) : Prop :=
  ∀ phrase, phraseOf textCase contents sentence node = some phrase →
    (s.heap.phrase phrase).concepts = [] → IsNameable textCase contents phrase ∧
      (s.heap.uri (s.heap.phrase phrase).uri).Accepted platform

/-- A later state. Objects stay what they are, up to the texts that are made of URIs, and a
phrase may get a concept when it has none and can be named. -/
structure Grows (s t : ParserState) : Prop where
  concepts : ∀ phrase, (t.heap.phrase phrase).concepts = (s.heap.phrase phrase).concepts ∨
    (s.heap.phrase phrase).concepts = [] ∧ IsNameable textCase contents phrase ∧
      ∃ concept, (t.heap.phrase phrase).concepts = [concept]
  phraseUri : ∀ phrase, (t.heap.phrase phrase).uri = (s.heap.phrase phrase).uri
  phrasesOf : ∀ c, HasLine s.heap c →
    HasLine t.heap c ∧ t.heap.phrasesOf c = s.heap.phrasesOf c
  link : ∀ l < s.heap.links.size, t.heap.link l = s.heap.link l
  links_le : s.heap.links.size ≤ t.heap.links.size
  uri : ∀ u < s.heap.uris.size, (s.heap.uri u).TextKept platform (t.heap.uri u)
  uris_le : s.heap.uris.size ≤ t.heap.uris.size
  asked : s.asked <+: t.asked

/-- The URI of the phrase exists, and its text is accepted. -/
def IsPrinted (heap : Heap) (phrase : PhraseRef) : Prop :=
  (heap.phrase phrase).uri < heap.uris.size ∧
    (heap.uri (heap.phrase phrase).uri).Accepted platform

/-- A later state of a walk that has gone on. A phrase that got a concept could be printed. -/
structure Continues (s t : ParserState) : Prop extends Grows platform textCase contents s t where
  printed : ∀ phrase, (t.heap.phrase phrase).concepts = (s.heap.phrase phrase).concepts ∨
    IsPrinted platform t.heap phrase

variable {platform textCase contents sentence} {s m t : ParserState} {node : NodeFeatures}

theorem phraseOf_eq_some_iff {phrase : PhraseRef} :
    phraseOf textCase contents sentence node = some phrase ↔
      ∃ name, nameOf node = some name ∧ findPhrase textCase contents name sentence = [phrase] := by
  rw [phraseOf]
  cases nameOf node with
  | none => simp
  | some name =>
    change (match findPhrase textCase contents name sentence with
      | [phrase] => some phrase | _ => none) = _ ↔ _
    match found : findPhrase textCase contents name sentence with
    | [] => simp [found]
    | [one] => simp [found]
    | _ :: _ :: _ => simp [found]

theorem Grows.refl (s : ParserState) : Grows platform textCase contents s s where
  concepts _ := Or.inl rfl
  phraseUri _ := rfl
  phrasesOf _ has := ⟨has, rfl⟩
  link _ _ := rfl
  links_le := le_rfl
  uri _ _ := Or.inl rfl
  uris_le := le_rfl
  asked := List.prefix_rfl

theorem Grows.trans (first : Grows platform textCase contents s m)
    (second : Grows platform textCase contents m t) : Grows platform textCase contents s t where
  concepts phrase := by
    rcases first.concepts phrase with same | ⟨none, nameable, concept, one⟩
    · rw [← same]
      exact second.concepts phrase
    · refine Or.inr ⟨none, nameable, concept, ?_⟩
      rcases second.concepts phrase with same | ⟨none, -⟩
      · exact same.trans one
      · rw [one] at none
        cases none
  phraseUri phrase := (second.phraseUri phrase).trans (first.phraseUri phrase)
  phrasesOf c has := by
    obtain ⟨has', same⟩ := first.phrasesOf c has
    obtain ⟨has'', same'⟩ := second.phrasesOf c has'
    exact ⟨has'', same'.trans same⟩
  link l inside := (second.link l (inside.trans_le first.links_le)).trans (first.link l inside)
  links_le := first.links_le.trans second.links_le
  uri u inside := (first.uri u inside).trans (second.uri u (inside.trans_le first.uris_le))
  uris_le := first.uris_le.trans second.uris_le
  asked := first.asked.trans second.asked

/-- Whether the text of a phrase is accepted does not change. -/
theorem Grows.accepted_iff (later : Grows platform textCase contents s t) {phrase : PhraseRef}
    (exist : (s.heap.phrase phrase).uri < s.heap.uris.size) :
    (t.heap.uri (t.heap.phrase phrase).uri).Accepted platform ↔
      (s.heap.uri (s.heap.phrase phrase).uri).Accepted platform := by
  rw [later.phraseUri]
  exact (later.uri _ exist).accepted_iff

theorem IsPrinted.grows {phrase : PhraseRef} (printed : IsPrinted platform s.heap phrase)
    (later : Grows platform textCase contents s t) : IsPrinted platform t.heap phrase := by
  refine ⟨?_, (later.accepted_iff printed.1).mpr printed.2⟩
  rw [later.phraseUri]
  exact printed.1.trans_le later.uris_le

/-- Where no phrase gets a concept, there is nothing to print. -/
theorem Grows.continues (later : Grows platform textCase contents s t)
    (same : t.heap.phrases = s.heap.phrases) : Continues platform textCase contents s t where
  toGrows := later
  printed phrase := Or.inl (by rw [Heap.phrase, same, Heap.phrase])

theorem Continues.refl (s : ParserState) : Continues platform textCase contents s s :=
  (Grows.refl s).continues rfl

theorem Continues.trans (first : Continues platform textCase contents s m)
    (second : Continues platform textCase contents m t) :
    Continues platform textCase contents s t where
  toGrows := first.toGrows.trans second.toGrows
  printed phrase := by
    rcases first.printed phrase with same | printed
    · rw [← same]
      exact second.printed phrase
    · exact Or.inr (printed.grows second.toGrows)

/-- The node has been asked for on the way from one state to another. -/
def AskedFor (s t : ParserState) (node : NodeFeatures) : Prop :=
  ∃ asked, t.asked = s.asked ++ asked ∧ node ∈ asked

theorem AskedFor.later (asked : AskedFor s m node)
    (later : Continues platform textCase contents m t) :
    AskedFor s t node := by
  obtain ⟨first, has, member⟩ := asked
  obtain ⟨second, has'⟩ := later.asked
  refine ⟨first ++ second, ?_, List.mem_append_left second member⟩
  rw [← has', has, List.append_assoc]

theorem AskedFor.earlier (asked : AskedFor m t node)
    (before : Continues platform textCase contents s m) :
    AskedFor s t node := by
  obtain ⟨second, has, member⟩ := asked
  obtain ⟨first, has'⟩ := before.asked
  refine ⟨first ++ second, ?_, List.mem_append_right first member⟩
  rw [has, ← has', List.append_assoc]

theorem IsFound.grows (found : IsFound textCase contents sentence s node)
    (later : Grows platform textCase contents s t) :
    IsFound textCase contents sentence t node := by
  obtain ⟨phrase, at', few, exist⟩ := found
  refine ⟨phrase, at', ?_⟩
  rcases later.concepts phrase with same | ⟨-, -, concept, one⟩
  · rw [same, later.phraseUri]
    exact ⟨few, fun none => (exist none).trans_le later.uris_le⟩
  · rw [one]
    exact ⟨le_rfl, fun none => nomatch none⟩

/-- Whether a node can get its concept is a matter of its phrase. -/
theorem canGetConcept_iff_of_phraseOf {phrase : PhraseRef}
    (at' : phraseOf textCase contents sentence node = some phrase) :
    CanGetConcept platform textCase contents sentence s node ↔
      ((s.heap.phrase phrase).concepts = [] → IsNameable textCase contents phrase ∧
        (s.heap.uri (s.heap.phrase phrase).uri).Accepted platform) := by
  rw [CanGetConcept, at']
  constructor
  · exact fun can => can phrase rfl
  · rintro can _ ⟨⟩
    exact can

/-- Whether a node can get its concept does not change along a walk. -/
theorem Continues.canGetConcept_iff (later : Continues platform textCase contents s t)
    (found : IsFound textCase contents sentence s node) :
    CanGetConcept platform textCase contents sentence t node ↔
      CanGetConcept platform textCase contents sentence s node := by
  obtain ⟨phrase, at', -, exist⟩ := found
  rw [canGetConcept_iff_of_phraseOf at', canGetConcept_iff_of_phraseOf at']
  rcases later.concepts phrase with same | ⟨none, nameable, concept, one⟩
  · rw [same]
    refine imp_congr_right fun none => and_congr_right fun _ => ?_
    exact later.accepted_iff (exist none)
  · -- the phrase has got its concept on the way
    refine iff_of_true (fun none' => absurd (one.symm.trans none') (List.cons_ne_nil _ _))
      fun _ => ⟨nameable, ?_⟩
    rcases later.printed phrase with same | printed
    · exact absurd (one.symm.trans (same.trans none)) (List.cons_ne_nil _ _)
    · exact (later.accepted_iff (exist none)).mp printed.2

/-! ### Handling nodes -/

section Handling

variable (platform textCase contents sentence) in
/-- Run from a state in which the nodes are found, the program ends normally and with the
postcondition when all nodes can get their concepts, and with an exception otherwise. -/
def HandlesAt {α : Type} (s : ParserState) (nodes : List NodeFeatures)
    (program : ParserProgram α) (Q : α → ParserState → Prop) : Prop :=
  (∀ node ∈ nodes, IsFound textCase contents sentence s node) →
    ((∀ node ∈ nodes, CanGetConcept platform textCase contents sentence s node) ∧
      ∃ a t, program.run s = .ok a t ∧ Continues platform textCase contents s t ∧ Q a t) ∨
    (¬ (∀ node ∈ nodes, CanGetConcept platform textCase contents sentence s node) ∧
      ∃ e t, program.run s = .error e t)

variable {α β : Type} {nodes others : List NodeFeatures} {program : ParserProgram α}
  {Q : α → ParserState → Prop}

theorem handlesAt_pure {a : α} (holds : Q a s) :
    HandlesAt platform textCase contents sentence s [] (pure a) Q :=
  fun _ => Or.inl ⟨List.forall_mem_nil _, a, s, rfl, .refl s, holds⟩

/-- A program that ends normally from the state it is run in and asks for no node. -/
theorem handlesAt_of_run {a : α} (run : program.run s = .ok a t)
    (later : Continues platform textCase contents s t) (holds : Q a t) :
    HandlesAt platform textCase contents sentence s [] program Q :=
  fun _ => Or.inl ⟨List.forall_mem_nil _, a, t, run, later, holds⟩

theorem HandlesAt.bind {f : α → ParserProgram β} {Q' : β → ParserState → Prop}
    (first : HandlesAt platform textCase contents sentence s nodes program Q)
    (second : ∀ a m, Continues platform textCase contents s m → Q a m →
      HandlesAt platform textCase contents sentence m others (f a) Q') :
    HandlesAt platform textCase contents sentence s (nodes ++ others) (program >>= f) Q' := by
  intro found
  rw [List.forall_mem_append] at found ⊢
  rcases first found.1 with ⟨named, a, m, run, later, holds⟩ | ⟨unnamed, e, t, run⟩
  · have kept : (∀ node ∈ others, CanGetConcept platform textCase contents sentence m node) ↔
        ∀ node ∈ others, CanGetConcept platform textCase contents sentence s node :=
      forall₂_congr fun node member => later.canGetConcept_iff (found.2 node member)
    rcases second a m later holds fun node member => (found.2 node member).grows later.toGrows with
      ⟨named', b, t, run', later', holds'⟩ | ⟨unnamed, e, t, run'⟩
    · refine Or.inl ⟨⟨named, kept.mp named'⟩, b, t, ?_, later.trans later', holds'⟩
      rw [run_bind_eq_ok_iff]
      exact ⟨a, m, run, run'⟩
    · refine Or.inr ⟨fun both => unnamed (kept.mpr both.2), e, t, ?_⟩
      rw [EStateM.run_bind, run]
      exact run'
  · refine Or.inr ⟨fun both => unnamed both.1, e, t, ?_⟩
    rw [EStateM.run_bind, run]

/-- Sequencing with a part that asks for no node. -/
theorem HandlesAt.bind_nil {f : α → ParserProgram β} {Q' : β → ParserState → Prop}
    (first : HandlesAt platform textCase contents sentence s nodes program Q)
    (second : ∀ a m, Continues platform textCase contents s m → Q a m →
      HandlesAt platform textCase contents sentence m [] (f a) Q') :
    HandlesAt platform textCase contents sentence s nodes (program >>= f) Q' :=
  List.append_nil nodes ▸ first.bind second

/-- Sequencing after a part that asks for no node. -/
theorem HandlesAt.nil_bind {f : α → ParserProgram β} {Q' : β → ParserState → Prop}
    (first : HandlesAt platform textCase contents sentence s [] program Q)
    (second : ∀ a m, Continues platform textCase contents s m → Q a m →
      HandlesAt platform textCase contents sentence m others (f a) Q') :
    HandlesAt platform textCase contents sentence s others (program >>= f) Q' :=
  first.bind second

/-- Nodes may be listed in another order and repeatedly. -/
theorem HandlesAt.congr {Q' : α → ParserState → Prop}
    (handles : HandlesAt platform textCase contents sentence s nodes program Q)
    (same : ∀ node, node ∈ others ↔ node ∈ nodes)
    (weaker : ∀ a t, Continues platform textCase contents s t → Q a t → Q' a t) :
    HandlesAt platform textCase contents sentence s others program Q' := by
  have all : ∀ P : NodeFeatures → Prop, (∀ node ∈ others, P node) ↔ ∀ node ∈ nodes, P node :=
    fun P => forall_congr' fun node => imp_congr_left (same node)
  unfold HandlesAt
  rw [all, all]
  intro found
  rcases handles found with ⟨named, a, t, run, later, holds⟩ | failed
  · exact Or.inl ⟨named, a, t, run, later, weaker a t later holds⟩
  · exact Or.inr failed

/-- Nodes that are asked for twice. -/
theorem HandlesAt.of_append_self
    (handles : HandlesAt platform textCase contents sentence s (nodes ++ nodes) program Q) :
    HandlesAt platform textCase contents sentence s nodes program Q :=
  handles.congr (fun node => by simp) fun _ _ _ holds => holds

/-- What kind of exception ends a run makes no difference. -/
theorem HandlesAt.rewrapping {start : String}
    (handles : HandlesAt platform textCase contents sentence s nodes program Q) :
    HandlesAt platform textCase contents sentence s nodes (rewrapping start program) Q := by
  intro found
  rcases handles found with ⟨named, a, t, run, kept⟩ | ⟨unnamed, e, t, run⟩
  · refine Or.inl ⟨named, a, t, ?_, kept⟩
    change EStateM.adaptExcept _ program s = _
    rw [EStateM.adaptExcept, show program s = .ok a t from run]
  · refine Or.inr ⟨unnamed, e.rewrap start, t, ?_⟩
    change EStateM.adaptExcept _ program s = _
    rw [EStateM.adaptExcept, show program s = .error e t from run]

end Handling

/-! ### The links of a walk -/

variable (textCase contents sentence) in
/-- The concepts of the phrase of a node. -/
def conceptsAt (s : ParserState) (node : NodeFeatures) : List ConceptRef :=
  (phraseOf textCase contents sentence node).elim [] fun phrase => (s.heap.phrase phrase).concepts

variable (textCase contents sentence) in
/-- The node has its concept. -/
def IsSettled (s : ParserState) (node : NodeFeatures) : Prop :=
  ∃ concept, conceptsAt textCase contents sentence s node = [concept]

/-- The ends and the name of a link. -/
def describe (heap : Heap) (l : LinkRef) : ConceptRef × String × ConceptRef :=
  ((heap.link l).source, (heap.uri (heap.link l).uri).name, (heap.link l).destination)

variable (textCase contents sentence) in
/-- The ends and the name of the link for a relation. -/
def expected (s : ParserState) (relation : FeatureNode.Relation) :
    ConceptRef × String × ConceptRef :=
  ((conceptsAt textCase contents sentence s relation.source).headD 0,
    conceptLinkName relation.name,
    (conceptsAt textCase contents sentence s relation.destination).headD 0)

/-- The link and its URI exist. -/
def IsMade (heap : Heap) (l : LinkRef) : Prop :=
  l < heap.links.size ∧ (heap.link l).uri < heap.uris.size

variable (textCase contents sentence) in
/-- Every concept has got a link for each of the relations that start at it, and no other. -/
structure Added (s t : ParserState) (relations : List FeatureNode.Relation) : Prop where
  settled : ∀ relation ∈ relations, IsSettled textCase contents sentence t relation.source ∧
    IsSettled textCase contents sentence t relation.destination
  links : ∀ c, ∃ added, (t.heap.concept c).conceptLinks =
      (s.heap.concept c).conceptLinks ++ added ∧ (∀ l ∈ added, IsMade t.heap l) ∧
    (added.map (describe t.heap)).Perm
      ((relations.map (expected textCase contents sentence t)).filter fun link => link.1 = c)

theorem isSettled_iff : IsSettled textCase contents sentence s node ↔
    ∃ phrase concept, phraseOf textCase contents sentence node = some phrase ∧
      (s.heap.phrase phrase).concepts = [concept] := by
  rw [IsSettled, conceptsAt]
  cases phraseOf textCase contents sentence node <;> simp

/-- A node with its concept is found, -/
theorem IsSettled.isFound (settled : IsSettled textCase contents sentence s node) :
    IsFound textCase contents sentence s node := by
  obtain ⟨phrase, concept, at', one⟩ := isSettled_iff.mp settled
  refine ⟨phrase, at', ?_⟩
  rw [one]
  exact ⟨le_rfl, fun none => nomatch none⟩

/-- and needs no other. -/
theorem IsSettled.canGetConcept (settled : IsSettled textCase contents sentence s node) :
    CanGetConcept platform textCase contents sentence s node := by
  obtain ⟨phrase, concept, at', one⟩ := isSettled_iff.mp settled
  intro phrase' at'' none
  obtain rfl := Option.some.inj (at'.symm.trans at'')
  rw [one] at none
  cases none

theorem IsSettled.continues (settled : IsSettled textCase contents sentence s node)
    (later : Continues platform textCase contents s t) :
    conceptsAt textCase contents sentence t node =
      conceptsAt textCase contents sentence s node := by
  obtain ⟨concept, one⟩ := settled
  unfold conceptsAt at *
  cases at' : phraseOf textCase contents sentence node with
  | none => rfl
  | some phrase =>
    rw [at'] at one
    rcases later.concepts phrase with same | ⟨none, -⟩
    · exact same
    · rw [Option.elim_some, none] at one
      cases one

theorem IsMade.continues {l : LinkRef} (made : IsMade s.heap l)
    (later : Continues platform textCase contents s t) :
    IsMade t.heap l ∧ describe t.heap l = describe s.heap l := by
  have link := later.link l made.1
  constructor
  · refine ⟨made.1.trans_le later.links_le, ?_⟩
    rw [link]
    exact made.2.trans_le later.uris_le
  · rw [describe, link, (later.uri _ made.2).name_eq]
    rfl

/-- A part of a walk that changes the links of no concept. -/
theorem added_nil (same : ∀ c, (t.heap.concept c).conceptLinks = (s.heap.concept c).conceptLinks) :
    Added textCase contents sentence s t [] where
  settled := List.forall_mem_nil _
  links c := ⟨[], by rw [same, List.append_nil], List.forall_mem_nil _, .refl _⟩

theorem Added.trans {first second : List FeatureNode.Relation}
    (before : Added textCase contents sentence s m first)
    (later : Continues platform textCase contents m t)
    (after : Added textCase contents sentence m t second) :
    Added textCase contents sentence s t (first ++ second) where
  settled := by
    rw [List.forall_mem_append]
    refine ⟨fun relation member => ?_, after.settled⟩
    obtain ⟨source, destination⟩ := before.settled relation member
    rw [IsSettled, source.continues later, IsSettled, destination.continues later]
    exact ⟨source, destination⟩
  links c := by
    obtain ⟨old, has, made, described⟩ := before.links c
    obtain ⟨new, has', made', described'⟩ := after.links c
    -- the concepts of what was settled before are the same in the later state
    have kept : first.map (expected textCase contents sentence t) =
        first.map (expected textCase contents sentence m) := by
      apply List.map_congr_left
      intro relation member
      obtain ⟨source, destination⟩ := before.settled relation member
      rw [expected, source.continues later, destination.continues later]
      rfl
    have same : old.map (describe t.heap) = old.map (describe m.heap) :=
      List.map_congr_left fun l member => ((made l member).continues later).2
    refine ⟨old ++ new, ?_, ?_, ?_⟩
    · rw [has', has, List.append_assoc]
    · rw [List.forall_mem_append]
      exact ⟨fun l member => ((made l member).continues later).1, made'⟩
    · rw [List.map_append, List.map_append, List.filter_append, same, kept]
      exact described.append described'

theorem Added.perm {first second : List FeatureNode.Relation}
    (added : Added textCase contents sentence s t first) (same : first.Perm second) :
    Added textCase contents sentence s t second where
  settled relation member := added.settled relation (same.mem_iff.mpr member)
  links c := by
    obtain ⟨new, has, made, described⟩ := added.links c
    exact ⟨new, has, made, described.trans ((same.map _).filter _)⟩

/-! ### The parts of a walk -/

theorem MakesOrphan.grows {phrase : PhraseRef} {concept : ConceptRef}
    (orphan : MakesOrphan phrase concept s t) (none : (s.heap.phrase phrase).concepts = [])
    (nameable : IsNameable textCase contents phrase) :
    Grows platform textCase contents s t where
  concepts other := by
    rw [Heap.phrase, orphan.phrases, Arena.get_modify]
    split
    case isTrue same =>
      subst same
      exact Or.inr ⟨none, nameable, concept, congrArg (· ++ [concept]) none⟩
    case isFalse => exact Or.inl rfl
  phraseUri other := by
    rw [Heap.phrase, orphan.phrases, Arena.get_modify, Heap.phrase]
    split <;> simp_all
  phrasesOf := orphan.phrasesOf
  link l _ := by rw [Heap.link, orphan.links, Heap.link]
  links_le := orphan.links.symm ▸ le_rfl
  uri u inside := by
    obtain ⟨uri, made⟩ := orphan.uris
    refine Or.inl ?_
    rw [Heap.uri, made, Arena.get_alloc_of_lt _ inside, Heap.uri]
  uris_le := by
    obtain ⟨uri, made⟩ := orphan.uris
    rw [made, Arena.size_alloc]
    exact Nat.le_succ _
  asked := orphan.asked ▸ List.prefix_rfl

/-- The walk goes on from an orphan whose phrase can be printed. -/
theorem MakesOrphan.continues {phrase : PhraseRef} {concept : ConceptRef}
    (orphan : MakesOrphan phrase concept s t) (none : (s.heap.phrase phrase).concepts = [])
    (nameable : IsNameable textCase contents phrase) (printed : IsPrinted platform s.heap phrase) :
    Continues platform textCase contents s t where
  toGrows := orphan.grows none nameable
  printed other := by
    by_cases same : other = phrase
    · subst same
      exact Or.inr (printed.grows (orphan.grows none nameable))
    · refine Or.inl ?_
      rw [Heap.phrase, orphan.phrases, Arena.get_modify_of_ne _ same, Heap.phrase]

/-- The record of a node changes nothing else. -/
theorem Grows.recorded (later : Grows platform textCase contents s t) (features : NodeFeatures)
    (error : Option ParseError) :
    Grows platform textCase contents s (ParserState.recorded t features error) where
  __ := later
  asked := later.asked.trans (List.prefix_append _ _)

theorem Continues.recorded (later : Continues platform textCase contents s t)
    (features : NodeFeatures) (error : Option ParseError) :
    Continues platform textCase contents s (ParserState.recorded t features error) where
  toGrows := later.toGrows.recorded features error
  printed := later.printed

theorem askedFor_recorded (same : t.asked = s.asked) (features : NodeFeatures)
    (error : Option ParseError) : AskedFor s (ParserState.recorded t features error) features :=
  ⟨[features], congrArg (· ++ [features]) same, List.mem_singleton_self _⟩

variable (textCase contents sentence) in
/-- A node has been looked up to its concept. -/
structure LookedUp (s : ParserState) (features : NodeFeatures) (concept : ConceptRef)
    (t : ParserState) : Prop where
  settled : conceptsAt textCase contents sentence t features = [concept]
  added : Added textCase contents sentence s t []
  asked : AskedFor s t features

/-- A node with its concept is looked up to that. -/
theorem run_lookUp_of_settled {features : NodeFeatures} {name : String} {phrase : PhraseRef}
    {concept : ConceptRef} (one : findPhrase textCase contents name sentence = [phrase])
    (at' : phraseOf textCase contents sentence features = some phrase)
    (known : (s.heap.phrase phrase).concepts = [concept]) :
    ∃ t, (lookUp textCase contents features name sentence).run s = .ok (some concept, none) t ∧
      Continues platform textCase contents s t ∧
        LookedUp textCase contents sentence s features concept t := by
  refine ⟨_, run_lookUp features (run_getConcept_of_concept one known),
    (Continues.refl s).recorded _ _, ?_, added_nil fun _ => rfl, askedFor_recorded rfl _ _⟩
  rw [conceptsAt, at']
  exact known

/-- A node without a concept is looked up to a new one, if that can be named. -/
theorem run_lookUp_of_orphan {features : NodeFeatures} {name : String} {phrase : PhraseRef}
    (one : findPhrase textCase contents name sentence = [phrase])
    (at' : phraseOf textCase contents sentence features = some phrase)
    (none : (s.heap.phrase phrase).concepts = []) (nameable : IsNameable textCase contents phrase) :
    ∃ concept e t m, (lookUp textCase contents features name sentence).run s =
        .ok (some concept, some e) t ∧ MakesOrphan phrase concept s m ∧
      t = ParserState.recorded m features (some e) ∧
        LookedUp textCase contents sentence s features concept t := by
  obtain ⟨conceptName, name'⟩ := Option.isSome_iff_exists.mp nameable
  obtain ⟨concept, m, ended, orphan⟩ := run_getConcept_of_orphan one none name'
  refine ⟨concept, _, _, m, run_lookUp features ended, orphan, rfl, ?_,
    added_nil orphan.conceptLinks, askedFor_recorded orphan.asked _ _⟩
  rw [conceptsAt, at', Option.elim_some]
  change (m.heap.phrases.get phrase).concepts = [concept]
  rw [orphan.phrases, Arena.get_modify_self]
  exact congrArg (· ++ [concept]) none

/-! ### The text of an orphan -/

/-- The text of a concept is made when its phrases are accepted. -/
theorem run_textOf_of_accepted {concept : ConceptRef}
    (accepted : ∀ u ∈ (s.heap.phrasesOf concept).keys, (s.heap.uri u).Accepted platform) :
    ∃ text t, (textOf platform concept).run s = .ok text t ∧ s.heap.TextsKept platform t.heap ∧
      t.asked = s.asked := by
  have asks : Asks platform s.heap (s.heap.phraseURIs concept) (s.heap.conceptText concept)
      (Concept.toString platform ParseFailure.uriSyntaxException concept) := asks_toString concept
  obtain ⟨heap, run, kept⟩ := asks.run_of_accepted (.refl s.heap) accepted
  refine ⟨s.heap.conceptText concept, { s with heap }, ?_, kept, rfl⟩
  change onTexts _ s = _
  rw [onTexts, run]

/-- A text that is refused is the end. -/
theorem run_textOf_of_refused {concept : ConceptRef}
    (refused : ¬ ∀ u ∈ (s.heap.phrasesOf concept).keys, (s.heap.uri u).Accepted platform) :
    ∃ e t, (textOf platform concept).run s = .error e t := by
  have asks : Asks platform s.heap (s.heap.phraseURIs concept) (s.heap.conceptText concept)
      (Concept.toString platform ParseFailure.uriSyntaxException concept) := asks_toString concept
  obtain ⟨e, heap, run, -⟩ := asks.run_of_refused (.refl s.heap) refused
  refine ⟨e, { s with heap }, ?_⟩
  change onTexts _ s = _
  rw [onTexts, run]

theorem Grows.of_textsKept (kept : s.heap.TextsKept platform t.heap) (asked : t.asked = s.asked) :
    Grows platform textCase contents s t where
  concepts p := Or.inl (by rw [Heap.phrase, kept.objects]; rfl)
  phraseUri p := by rw [Heap.phrase, kept.objects]; rfl
  phrasesOf c has := ⟨by rw [kept.objects]; exact has, kept.phrasesOf_eq c⟩
  link l _ := kept.link_eq l
  links_le := by rw [kept.objects]
  uri u _ := kept.uris u
  uris_le := kept.size
  asked := asked ▸ List.prefix_rfl

/-- Making texts goes on. -/
theorem Continues.of_textsKept (kept : s.heap.TextsKept platform t.heap)
    (asked : t.asked = s.asked) : Continues platform textCase contents s t :=
  (Grows.of_textsKept kept asked).continues (by rw [kept.objects])

theorem run_conclude_some {concept : ConceptRef} {e : ParseError} :
    (conclude platform concept (some e) concept).run s =
      (textOf platform concept >>= fun _ => textOf platform concept >>= fun _ =>
        pure (some concept, none)).run s := by
  simp [conclude]

/-- A node is done when it is no orphan, or the phrases of the orphan are accepted. -/
theorem handlesAt_conclude {concept : ConceptRef} {error : Option ParseError}
    (accepted : error.isSome →
      ∀ u ∈ (s.heap.phrasesOf concept).keys, (s.heap.uri u).Accepted platform) :
    HandlesAt platform textCase contents sentence s [] (conclude platform concept error concept)
      fun result t => result = (some concept, none) ∧
        Added textCase contents sentence s t [] ∧ t.heap.phrases = s.heap.phrases := by
  cases error with
  | none => exact handlesAt_pure ⟨rfl, added_nil fun _ => rfl, rfl⟩
  | some e =>
    obtain ⟨_, m, run, kept, asked⟩ := run_textOf_of_accepted (accepted rfl)
    have still : ∀ u ∈ (m.heap.phrasesOf concept).keys, (m.heap.uri u).Accepted platform := by
      rw [kept.phrasesOf_eq]
      exact fun u member => (kept.uris u).accepted_iff.mpr (accepted rfl u member)
    obtain ⟨_, t, run', kept', asked'⟩ := run_textOf_of_accepted still
    have both := kept.trans kept'
    refine handlesAt_of_run (t := t) (a := (some concept, none)) ?_
      (.of_textsKept both (asked'.trans asked))
      ⟨rfl, added_nil fun c => by rw [both.concept_eq], by rw [both.objects]⟩
    rw [run_conclude_some, run_bind_eq_ok_iff]
    exact ⟨_, m, run, run_bind_eq_ok_iff.mpr ⟨_, t, run', rfl⟩⟩

/-! ### New links -/

/-- The relations that are walked into have names for links. -/
theorem ofRaw_conceptLinkName {name : String} (member : name ∈ relexFeatures) :
    KnowledgeURI.ofRaw (conceptLinkName name) = some { name := conceptLinkName name } := by
  have all : ∀ name ∈ relexFeatures,
      KnowledgeURI.ofRaw (conceptLinkName name) = some { name := conceptLinkName name } := by
    decide +kernel
  exact all name member

/-- A new link, with a new URI. -/
theorem run_createConceptLink (s : ParserState) (source destination : ConceptRef) {name : String}
    {knowledgeURI : KnowledgeURI} (read : KnowledgeURI.ofRaw name = some knowledgeURI) :
    ∃ t, (createConceptLink source destination name).run s = .ok s.heap.links.size t ∧
      Continues platform textCase contents s t ∧ IsMade t.heap s.heap.links.size ∧
        describe t.heap s.heap.links.size = (source, knowledgeURI.name, destination) ∧
          t.heap.concepts = s.heap.concepts := by
  obtain ⟨t, run, links, uris, concepts, phrases, lines, asked⟩ :
      ∃ t, (createConceptLink source destination name).run s = .ok s.heap.links.size t ∧
        t.heap.links = s.heap.links.alloc { source, destination, uri := s.heap.uris.size } ∧
          t.heap.uris = s.heap.uris.alloc knowledgeURI ∧ t.heap.concepts = s.heap.concepts ∧
            t.heap.phrases = s.heap.phrases ∧ t.heap.phraseLines = s.heap.phraseLines ∧
              t.asked = s.asked := by
    rw [createConceptLink, read]
    exact ⟨_, rfl, rfl, rfl, rfl, rfl, rfl, rfl⟩
  have made : t.heap.link s.heap.links.size =
      { source, destination, uri := s.heap.uris.size } := by
    rw [Heap.link, links, Arena.get_alloc_size]
  have grows : Grows platform textCase contents s t := {
    concepts := fun p => Or.inl (by rw [Heap.phrase, phrases, Heap.phrase])
    phraseUri := fun p => by rw [Heap.phrase, phrases, Heap.phrase]
    phrasesOf := fun c has => by
      simp only [HasLine, Heap.phrasesOf, Heap.concept, concepts, lines] at has ⊢
      exact ⟨has, trivial⟩
    link := fun l inside => by
      rw [Heap.link, links, Arena.get_alloc_of_lt _ inside, Heap.link]
    links_le := by
      rw [links, Arena.size_alloc]
      exact Nat.le_succ _
    uri := fun u inside => Or.inl (by
      rw [Heap.uri, uris, Arena.get_alloc_of_lt _ inside, Heap.uri])
    uris_le := by
      rw [uris, Arena.size_alloc]
      exact Nat.le_succ _
    asked := asked ▸ List.prefix_rfl }
  refine ⟨t, run, grows.continues phrases, ?_, ?_, concepts⟩
  · rw [IsMade, made, links, uris, Arena.size_alloc, Arena.size_alloc]
    exact ⟨Nat.lt_succ_self _, Nat.lt_succ_self _⟩
  · rw [describe, made, Heap.uri, uris, Arena.get_alloc_size]

/-! ### The loops over the relations -/

/-- The nodes of a tree. -/
def nodesOf (tree : FeatureNode) : List NodeFeatures :=
  tree.visited.map FeatureNode.Visited.features

variable (textCase contents sentence) in
/-- What a walk through a tree leaves. -/
structure Walked (s : ParserState) (tree : FeatureNode) (result : NodeResult)
    (t : ParserState) : Prop where
  found : ∃ concept, result = (some concept, none) ∧
    conceptsAt textCase contents sentence t tree.root = [concept]
  added : Added textCase contents sentence s t (tree.relationsPassed 2)
  asked : ∀ node ∈ nodesOf tree, AskedFor s t node

section Loops

variable {links : List (String × FeatureNode)} {process : FeatureNode → ParserProgram NodeResult}
  (below : ∀ link ∈ links, ∀ s, HandlesAt platform textCase contents sentence s (nodesOf link.2)
    (process link.2) (Walked textCase contents sentence s link.2))

include below

/-- Every relation is found to lead to a concept. -/
theorem handlesAt_filterAuxM (s : ParserState)
    (kept : List (String × ParserProgram NodeResult)) :
    HandlesAt platform textCase contents sentence s (links.flatMap fun link => nodesOf link.2)
      ((links.map fun link => (link.1, process link.2)).filterAuxM hasDestination kept)
      fun all t => all = (links.map fun link => (link.1, process link.2)).reverse ++ kept ∧
        Added textCase contents sentence s t (links.flatMap fun link => link.2.relationsPassed 2) ∧
          ∀ node ∈ links.flatMap fun link => nodesOf link.2, AskedFor s t node := by
  -- on the links; `filterAuxM` conses those that pass, so they stand in reverse
  induction links generalizing s kept with
  | nil => exact handlesAt_pure ⟨rfl, added_nil fun _ => rfl, List.forall_mem_nil _⟩
  | cons link rest ih =>
    rw [List.forall_mem_cons] at below
    rw [List.map_cons, List.filterAuxM, List.flatMap_cons]
    have first : HandlesAt platform textCase contents sentence s (nodesOf link.2)
        (hasDestination (link.1, process link.2)) fun passes m => passes = true ∧
          Added textCase contents sentence s m (link.2.relationsPassed 2) ∧
            ∀ node ∈ nodesOf link.2, AskedFor s m node := by
      refine (below.1 s).bind_nil fun result m _ walked => ?_
      obtain ⟨concept, rfl, -⟩ := walked.found
      exact handlesAt_pure ⟨rfl, walked.added, walked.asked⟩
    refine first.bind fun passes m later held => ?_
    obtain ⟨rfl, added, asked⟩ := held
    refine (ih below.2 m ((link.1, process link.2) :: kept)).congr (fun _ => Iff.rfl) ?_
    rintro all t later' ⟨rfl, added', asked'⟩
    refine ⟨by simp, ?_, ?_⟩
    · rw [List.flatMap_cons]
      exact added.trans later' added'
    · rw [List.forall_mem_append]
      exact ⟨fun node member => (asked node member).later later',
        fun node member => (asked' node member).earlier later⟩

theorem handlesAt_filterM (s : ParserState) :
    HandlesAt platform textCase contents sentence s (links.flatMap fun link => nodesOf link.2)
      ((links.map fun link => (link.1, process link.2)).filterM hasDestination)
      fun all t => all = (links.map fun link => (link.1, process link.2)) ∧
        Added textCase contents sentence s t (links.flatMap fun link => link.2.relationsPassed 2) ∧
          ∀ node ∈ links.flatMap fun link => nodesOf link.2, AskedFor s t node := by
  rw [List.filterM]
  refine (handlesAt_filterAuxM below s []).bind_nil fun all t _ held => ?_
  obtain ⟨same, kept⟩ := held
  refine handlesAt_pure ⟨?_, kept⟩
  rw [same, List.append_nil, List.reverse_reverse]

/-- A link is made for every relation, once the node at its other end has been processed
again. -/
theorem handlesAt_mapM (known : ∀ link ∈ links, link.1 ∈ relexFeatures) (source : ConceptRef)
    (s : ParserState) :
    HandlesAt platform textCase contents sentence s (links.flatMap fun link => nodesOf link.2)
      ((links.map fun link => (link.1, process link.2)).mapM (linkFor source))
      fun ls t => Added textCase contents sentence s t
          (links.flatMap fun link => link.2.relationsPassed 2) ∧
        (∀ l ∈ ls, IsMade t.heap l) ∧
        (∀ link ∈ links, IsSettled textCase contents sentence t link.2.root) ∧
        ls.map (describe t.heap) = links.map fun link => (source, conceptLinkName link.1,
          (conceptsAt textCase contents sentence t link.2.root).headD 0) := by
  -- on the links; what is settled at the first one stays settled while the others are made
  induction links generalizing s with
  | nil =>
    exact handlesAt_pure ⟨added_nil fun _ => rfl, List.forall_mem_nil _, List.forall_mem_nil _, rfl⟩
  | cons link rest ih =>
    rw [List.forall_mem_cons] at below known
    rw [List.map_cons, List.mapM_cons, List.flatMap_cons]
    have first : HandlesAt platform textCase contents sentence s (nodesOf link.2)
        (linkFor source (link.1, process link.2)) fun l m =>
          Added textCase contents sentence s m (link.2.relationsPassed 2) ∧ IsMade m.heap l ∧
            IsSettled textCase contents sentence m link.2.root ∧
              describe m.heap l = (source, conceptLinkName link.1,
                (conceptsAt textCase contents sentence m link.2.root).headD 0) := by
      refine (below.1 s).bind_nil fun result m _ walked => ?_
      obtain ⟨concept, rfl, settled⟩ := walked.found
      obtain ⟨t, run, later, made, described, concepts⟩ :=
        run_createConceptLink m source concept (ofRaw_conceptLinkName known.1)
      have kept := IsSettled.continues ⟨concept, settled⟩ later
      refine handlesAt_of_run run later ⟨?_, made, ⟨concept, kept.trans settled⟩, ?_⟩
      · have nothing : Added textCase contents sentence m t [] :=
          added_nil fun c => by rw [Heap.concept, concepts, Heap.concept]
        exact List.append_nil (link.2.relationsPassed 2) ▸ walked.added.trans later nothing
      · rw [described, kept, settled]
        rfl
    refine first.bind fun l m later handled => ?_
    obtain ⟨added, made, settled, described⟩ := handled
    refine (ih below.2 known.2 m).bind_nil fun ls t later' handled' => ?_
    obtain ⟨added', made', settled', described'⟩ := handled'
    have kept := settled.continues later'
    refine handlesAt_pure ⟨?_, ?_, ?_, ?_⟩
    · rw [List.flatMap_cons]
      exact added.trans later' added'
    · rw [List.forall_mem_cons]
      exact ⟨(made.continues later').1, made'⟩
    · rw [List.forall_mem_cons, IsSettled, kept]
      exact ⟨settled, settled'⟩
    · rw [List.map_cons, List.map_cons, (made.continues later').2, described, described', kept]

end Loops

section Node

variable {links : List (String × FeatureNode)} {process : FeatureNode → ParserProgram NodeResult}

/-- The links of the relations of a node. What is below them is gone through twice. -/
theorem handlesAt_processLink (below : ∀ link ∈ filteredFeatures links, ∀ s,
    HandlesAt platform textCase contents sentence s (nodesOf link.2) (process link.2)
      (Walked textCase contents sentence s link.2)) (source : ConceptRef) (s : ParserState) :
    let followed := filteredFeatures links
    let passed := followed.flatMap fun link => link.2.relationsPassed 2
    HandlesAt platform textCase contents sentence s (followed.flatMap fun link => nodesOf link.2)
      (processLink (links.map fun link => (link.1, process link.2)) source)
      fun ls t => Added textCase contents sentence s t (passed ++ passed) ∧
        (∀ node ∈ followed.flatMap fun link => nodesOf link.2, AskedFor s t node) ∧
        (∀ l ∈ ls, IsMade t.heap l) ∧
        (∀ link ∈ followed, IsSettled textCase contents sentence t link.2.root) ∧
        ls.map (describe t.heap) = followed.map fun link => (source, conceptLinkName link.1,
          (conceptsAt textCase contents sentence t link.2.root).headD 0) := by
  intro followed passed
  rw [processLink, FeatureNode.filteredFeatures_map]
  apply HandlesAt.rewrapping
  by_cases some : (followed.map fun link => (link.1, process link.2)).length > 0
  · rw [if_pos some]
    have known : ∀ link ∈ followed, link.1 ∈ relexFeatures :=
      fun link member => of_decide_eq_true (List.mem_filter.mp member).2
    -- the links are walked into twice: to filter them, and to make the new ones
    apply HandlesAt.of_append_self
    refine (handlesAt_filterM below s).bind fun all m later ⟨same, added, asked⟩ => ?_
    subst same
    refine (handlesAt_mapM below known source m).congr (fun _ => Iff.rfl) ?_
    rintro ls t later' ⟨added', kept⟩
    exact ⟨added.trans later' added', fun node member => (asked node member).later later', kept⟩
  · rw [if_neg some]
    have none : followed = [] := by simpa using some
    have nothing : passed = [] := List.flatMap_eq_nil_iff.mpr fun link member => by
      rw [none] at member
      cases member
    rw [nothing, none]
    exact handlesAt_pure ⟨added_nil fun _ => rfl, List.forall_mem_nil _, List.forall_mem_nil _,
      List.forall_mem_nil _, rfl⟩

/-- The links of a concept are no part of what is printed. -/
theorem continues_appendLinks (concept : ConceptRef) (ls : List LinkRef) (s : ParserState) :
    Continues platform textCase contents s (finalState ((appendLinks concept ls).run s)) := by
  refine Grows.continues { Grows.refl s with phrasesOf := fun c has => ?_ } rfl
  have same : ((finalState ((appendLinks concept ls).run s)).heap.concept c).phrases =
      (s.heap.concept c).phrases := by
    change ((s.heap.concepts.modify concept fun c =>
      { c with conceptLinks := c.conceptLinks ++ ls }).get c).phrases = _
    rw [Arena.get_modify]
    split
    case isTrue here => rw [here, Heap.concept]
    case isFalse => rfl
  obtain ⟨inside, line, exist, filed⟩ := has
  refine ⟨⟨inside.trans_le (Arena.size_le_size_modify ..), line, exist, same.trans filed⟩, ?_⟩
  rw [Heap.phrasesOf, same, Heap.phrasesOf]
  rfl

/-- The new links of a concept are appended to those it has. -/
theorem handlesAt_appendLinks {concept : ConceptRef} {ls : List LinkRef}
    {relations : List FeatureNode.Relation} (made : ∀ l ∈ ls, IsMade s.heap l)
    (settled : ∀ relation ∈ relations,
      conceptsAt textCase contents sentence s relation.source = [concept] ∧
        IsSettled textCase contents sentence s relation.destination)
    (described : ls.map (describe s.heap) =
      relations.map (expected textCase contents sentence s)) :
    HandlesAt platform textCase contents sentence s [] (appendLinks concept ls)
      fun _ t => Added textCase contents sentence s t relations := by
  refine handlesAt_of_run (s := s) rfl (continues_appendLinks concept ls s) ?_
  -- every relation starts at the concept whose links are extended
  have starts : ∀ c, (relations.map (expected textCase contents sentence s)).filter
      (fun link => link.1 = c) =
        if c = concept then relations.map (expected textCase contents sentence s) else [] := by
    intro c
    have here : ∀ link ∈ relations.map (expected textCase contents sentence s),
        link.1 = concept := by
      rw [List.forall_mem_map]
      intro relation member
      rw [expected, (settled relation member).1]
      rfl
    split
    case isTrue same =>
      rw [List.filter_eq_self]
      intro link member
      simpa [same] using here link member
    case isFalse other =>
      rw [List.filter_eq_nil_iff]
      intro link member
      simpa [here link member] using Ne.symm other
  constructor
  · exact fun relation member =>
      ⟨⟨concept, (settled relation member).1⟩, (settled relation member).2⟩
  · intro c
    refine ⟨if c = concept then ls else [], ?_, ?_, ?_⟩
    · change ((s.heap.concepts.modify concept fun c =>
        { c with conceptLinks := c.conceptLinks ++ ls }).get c).conceptLinks =
          (s.heap.concepts.get c).conceptLinks ++ _
      rw [Arena.get_modify]
      split
      case isTrue same =>
        subst same
        rfl
      case isFalse => exact (List.append_nil _).symm
    · split
      case isTrue => exact made
      case isFalse => exact List.forall_mem_nil _
    · refine List.Perm.of_eq (Eq.trans ?_ (starts c).symm)
      split
      case isTrue => exact described
      case isFalse => rfl

/-- The nodes along `NEXT`. -/
theorem handlesAt_processNext {next : Option FeatureNode} (continued : ∀ feature ∈ next, ∀ s,
    HandlesAt platform textCase contents sentence s (nodesOf feature) (process feature)
      (Walked textCase contents sentence s feature)) (s : ParserState) :
    HandlesAt platform textCase contents sentence s (next.elim [] nodesOf)
      (processNext (next.map process)) fun _ t =>
        Added textCase contents sentence s t (next.elim [] (·.relationsPassed 2)) ∧
          ∀ node ∈ next.elim [] nodesOf, AskedFor s t node := by
  cases next with
  | none => exact handlesAt_pure ⟨added_nil fun _ => rfl, List.forall_mem_nil _⟩
  | some feature =>
    refine (continued feature rfl s).bind_nil fun result t _ walked => ?_
    exact handlesAt_pure ⟨walked.added, walked.asked⟩

/-- The links of a node whose concept is known, and the nodes along `NEXT`. -/
theorem handlesAt_addLinks {features : NodeFeatures} {next : Option FeatureNode}
    (below : ∀ link ∈ filteredFeatures links, ∀ s,
      HandlesAt platform textCase contents sentence s (nodesOf link.2) (process link.2)
        (Walked textCase contents sentence s link.2))
    (continued : ∀ feature ∈ next, ∀ s,
      HandlesAt platform textCase contents sentence s (nodesOf feature) (process feature)
        (Walked textCase contents sentence s feature))
    {concept : ConceptRef}
    (settled : conceptsAt textCase contents sentence s features = [concept]) :
    let followed := filteredFeatures links
    let passed := followed.flatMap fun link => link.2.relationsPassed 2
    HandlesAt platform textCase contents sentence s
      ((followed.flatMap fun link => nodesOf link.2) ++ next.elim [] nodesOf)
      (addLinks (links.map fun link => (link.1, process link.2)) (next.map process) concept)
      fun updated t => updated = concept ∧
        Added textCase contents sentence s t ((passed ++ passed) ++
          (followed.map fun link => ⟨features, link.1, link.2.root⟩) ++
            next.elim [] (·.relationsPassed 2)) ∧
        ∀ node ∈ (followed.flatMap fun link => nodesOf link.2) ++ next.elim [] nodesOf,
          AskedFor s t node := by
  intro followed passed
  rw [addLinks]
  refine (handlesAt_processLink below concept s).bind
    fun ls m later ⟨added, asked, made, roots, described⟩ => ?_
  have here := (IsSettled.continues ⟨concept, settled⟩ later).trans settled
  -- the links of the node itself
  have append : HandlesAt platform textCase contents sentence m [] (appendLinks concept ls) fun _ t =>
      Added textCase contents sentence m t
        (followed.map fun link => ⟨features, link.1, link.2.root⟩) := by
    apply handlesAt_appendLinks made
    · rw [List.forall_mem_map]
      exact fun link member => ⟨here, roots link member⟩
    · rw [described, List.map_map]
      apply List.map_congr_left
      intro link _
      rw [Function.comp_apply, expected, here]
      rfl
  refine append.nil_bind fun _ m' later' added' => ?_
  refine (handlesAt_processNext continued m').bind_nil fun _ t later'' ⟨added'', asked''⟩ => ?_
  refine handlesAt_pure ⟨rfl, (added.trans later' added').trans later'' added'', ?_⟩
  rw [List.forall_mem_append]
  exact ⟨fun node member => (asked node member).later (later'.trans later''),
    fun node member => (asked'' node member).earlier (later.trans later')⟩

theorem nodesOf_node (features : NodeFeatures) (links : List (String × FeatureNode))
    (next : Option FeatureNode) : nodesOf (.node features links next) = features ::
      (((filteredFeatures links).flatMap fun link => nodesOf link.2) ++
        next.elim [] nodesOf) := by
  rw [nodesOf, FeatureNode.visited_node, List.map_cons, List.map_append, List.map_flatMap]
  cases next <;> rfl

/-- What follows at a node whose concept is known: its links, the nodes along `NEXT`, and the
text of an orphan, which can be made. -/
theorem handlesAt_follow {features : NodeFeatures} {next : Option FeatureNode}
    (below : ∀ link ∈ filteredFeatures links, ∀ s,
      HandlesAt platform textCase contents sentence s (nodesOf link.2) (process link.2)
        (Walked textCase contents sentence s link.2))
    (continued : ∀ feature ∈ next, ∀ s,
      HandlesAt platform textCase contents sentence s (nodesOf feature) (process feature)
        (Walked textCase contents sentence s feature))
    {concept : ConceptRef} {error : Option ParseError}
    (found : LookedUp textCase contents sentence s features concept m)
    (before : Continues platform textCase contents s m)
    (accepted : error.isSome → HasLine m.heap concept ∧
      ∀ u ∈ (m.heap.phrasesOf concept).keys, u < m.heap.uris.size ∧
        (m.heap.uri u).Accepted platform) :
    HandlesAt platform textCase contents sentence m
      (((filteredFeatures links).flatMap fun link => nodesOf link.2) ++ next.elim [] nodesOf)
      (addLinks (links.map fun link => (link.1, process link.2)) (next.map process) concept >>=
        conclude platform concept error)
      (Walked textCase contents sentence s (.node features links next)) := by
  refine (handlesAt_addLinks below continued found.settled).bind_nil
    fun updated t later ⟨same, added, asked⟩ => ?_
  subst same
  have still : error.isSome →
      ∀ u ∈ (t.heap.phrasesOf updated).keys, (t.heap.uri u).Accepted platform := by
    intro orphan
    obtain ⟨filed, all⟩ := accepted orphan
    rw [(later.phrasesOf updated filed).2]
    exact fun u member => (later.uri u (all u member).1).accepted_iff.mpr (all u member).2
  refine (handlesAt_conclude still).congr (fun _ => Iff.rfl) ?_
  rintro _ t' later' ⟨rfl, nothing, phrases⟩
  refine ⟨⟨updated, rfl, ?_⟩, ?_, ?_⟩
  · exact (IsSettled.continues ⟨updated, found.settled⟩ (later.trans later')).trans found.settled
  · have all := (found.added.trans later added).trans later' nothing
    refine all.perm ?_
    rw [FeatureNode.relationsPassed_node, List.replicate_succ, List.replicate_one,
      List.flatten_cons, List.flatten_singleton, List.nil_append, List.append_nil]
    exact List.perm_append_comm.append_right _
  · rw [nodesOf_node, List.forall_mem_cons]
    refine ⟨found.asked.later (later.trans later'), fun node member => ?_⟩
    exact ((asked node member).later later').earlier before

/-- An orphan that cannot be printed is the end, at the latest when its links have been added. -/
theorem exists_error_follow {features : NodeFeatures} {next : Option FeatureNode}
    (below : ∀ link ∈ filteredFeatures links, ∀ s,
      HandlesAt platform textCase contents sentence s (nodesOf link.2) (process link.2)
        (Walked textCase contents sentence s link.2))
    (continued : ∀ feature ∈ next, ∀ s,
      HandlesAt platform textCase contents sentence s (nodesOf feature) (process feature)
        (Walked textCase contents sentence s feature))
    {concept : ConceptRef} {e : ParseError}
    (settled : conceptsAt textCase contents sentence m features = [concept])
    (found : ∀ node ∈ ((filteredFeatures links).flatMap fun link => nodesOf link.2) ++
      next.elim [] nodesOf, IsFound textCase contents sentence m node)
    (filed : HasLine m.heap concept)
    (refused : ¬ ∀ u ∈ (m.heap.phrasesOf concept).keys, u < m.heap.uris.size →
      (m.heap.uri u).Accepted platform) :
    ∃ e' t, (addLinks (links.map fun link => (link.1, process link.2)) (next.map process) concept >>=
      conclude platform concept (some e)).run m = .error e' t := by
  rw [EStateM.run_bind]
  rcases handlesAt_addLinks below continued settled found with
    ⟨-, updated, t, run, later, rfl, -⟩ | ⟨-, e', t, run⟩
  · rw [run]
    dsimp only
    rw [run_conclude_some, EStateM.run_bind]
    have refusal : ¬ ∀ u ∈ (t.heap.phrasesOf updated).keys, (t.heap.uri u).Accepted platform :=
      fun all => refused fun u member inside => by
        rw [← (later.uri u inside).accepted_iff]
        exact all u ((later.phrasesOf updated filed).2 ▸ member)
    obtain ⟨e', t', run'⟩ := run_textOf_of_refused refusal
    exact ⟨e', t', by rw [run']⟩
  · exact ⟨e', t, by rw [run]⟩

/-- A walk ends normally exactly when every orphan in it can be named and printed. Then it has
asked for every node, and has made the links of the relations, those below another relation
twice as often as that one. -/
theorem handlesAt_processNode (tree : FeatureNode) (s : ParserState) :
    HandlesAt platform textCase contents sentence s (nodesOf tree)
      (processNode platform textCase contents sentence tree)
      (Walked textCase contents sentence s tree) := by
  -- on the tree; the state a node is processed in is that of the walk so far
  induction tree using FeatureNode.induction generalizing s with
  | step features links next linked continued =>
    rw [processNode, FeatureNode.fold_node, ← processNode, processNodeWith]
    apply HandlesAt.rewrapping
    intro found
    have all := found
    rw [nodesOf_node, List.forall_mem_cons] at all
    obtain ⟨⟨phrase, at', few, exist⟩, others⟩ := all
    obtain ⟨name, named, one⟩ := phraseOf_eq_some_iff.mp at'
    rw [named]
    have below : ∀ link ∈ filteredFeatures links, ∀ s,
        HandlesAt platform textCase contents sentence s (nodesOf link.2)
          (processNode platform textCase contents sentence link.2)
          (Walked textCase contents sentence s link.2) :=
      fun link member => linked link (List.mem_of_mem_filter member)
    -- once the node has its concept, and an orphan can be printed, the walk goes on
    have follow : ∀ {concept : ConceptRef} {error : Option ParseError} {m : ParserState},
        CanGetConcept platform textCase contents sentence s features →
        (lookUp textCase contents features name sentence).run s = .ok (some concept, error) m →
        Continues platform textCase contents s m →
        LookedUp textCase contents sentence s features concept m →
        (error.isSome → HasLine m.heap concept ∧
          ∀ u ∈ (m.heap.phrasesOf concept).keys, u < m.heap.uris.size ∧
            (m.heap.uri u).Accepted platform) →
        HandlesAt platform textCase contents sentence s (nodesOf (.node features links next))
          (lookUp textCase contents features name sentence >>= afterLookUp platform
            (links.map fun link => (link.1, processNode platform textCase contents sentence link.2))
            (next.map (processNode platform textCase contents sentence)))
          (Walked textCase contents sentence s (.node features links next)) := by
      intro concept error m can run before looked accepted
      rw [nodesOf_node]
      have first : HandlesAt platform textCase contents sentence s [features]
          (lookUp textCase contents features name sentence)
          fun result t => result = (some concept, error) ∧ t = m :=
        fun _ => Or.inl ⟨List.forall_mem_singleton.mpr can, _, m, run, before, rfl, rfl⟩
      refine HandlesAt.bind first ?_
      rintro _ _ - ⟨rfl, rfl⟩
      exact handlesAt_follow below continued looked before accepted
    have only : CanGetConcept platform textCase contents sentence s features ↔
        ((s.heap.phrase phrase).concepts = [] → IsNameable textCase contents phrase ∧
          (s.heap.uri (s.heap.phrase phrase).uri).Accepted platform) :=
      canGetConcept_iff_of_phraseOf at'
    -- a phrase with a concept returns it, one without is given one, more are not looked up
    match known : (s.heap.phrase phrase).concepts with
    | [concept] =>
      have can := only.mpr fun none => absurd (known.symm.trans none) (List.cons_ne_nil _ _)
      obtain ⟨m, run, before, looked⟩ := run_lookUp_of_settled one at' known
      exact follow can run before looked (fun orphan => nomatch orphan) found
    | _ :: _ :: _ =>
      rw [known] at few
      exact absurd few (by simp)
    | [] =>
      have refused : ¬ CanGetConcept platform textCase contents sentence s features →
          ¬ ∀ node ∈ nodesOf (.node features links next),
            CanGetConcept platform textCase contents sentence s node :=
        fun cannot can => cannot (can features (by rw [nodesOf_node]; exact List.mem_cons_self))
      by_cases nameable : IsNameable textCase contents phrase
      · obtain ⟨concept, e, _, m, run, orphan, rfl, looked⟩ :=
          run_lookUp_of_orphan one at' known nameable
        have grows : Grows platform textCase contents s m := orphan.grows known nameable
        have still := (grows.uri _ (exist known)).accepted_iff
        by_cases accepted : (s.heap.uri (s.heap.phrase phrase).uri).Accepted platform
        · refine follow (only.mpr fun _ => ⟨nameable, accepted⟩) run
            ((orphan.continues known nameable ⟨exist known, accepted⟩).recorded features (some e))
            looked (fun _ => ⟨orphan.filed.1, ?_⟩) found
          change ∀ u ∈ (m.heap.phrasesOf concept).keys, _
          rw [orphan.filed.2, List.forall_mem_singleton]
          exact ⟨(exist known).trans_le grows.uris_le, still.mpr accepted⟩
        · -- the links are added before the text is asked for
          refine Or.inr ⟨refused fun can => accepted (only.mp can known).2, ?_⟩
          have later := grows.recorded features (some e)
          rw [EStateM.run_bind, run]
          refine exists_error_follow below continued looked.settled
            (fun node member => (others node member).grows later) orphan.filed.1 ?_
          change ¬ ∀ u ∈ (m.heap.phrasesOf concept).keys,
            u < m.heap.uris.size → (m.heap.uri u).Accepted platform
          rw [orphan.filed.2, List.forall_mem_singleton]
          exact fun all => accepted (still.mp (all ((exist known).trans_le grows.uris_le)))
      · refine Or.inr ⟨refused fun can => nameable (only.mp can known).1,
          .runtimeException "empty.reduceLeft", s, ?_⟩
        have unnamed : Concept.prepareName textCase (contents phrase).text = none := by
          simpa [IsNameable] using nameable
        rw [EStateM.run_bind, lookUp, EStateM.run_bind, run_getConcept_of_unnamed one known unnamed]

end Node

end LinkParser

end ThinkingUnderstanding
