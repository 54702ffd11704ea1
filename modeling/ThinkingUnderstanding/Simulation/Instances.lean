import ThinkingUnderstanding.Hierarchy.Ascending
import ThinkingUnderstanding.Simulation.GeneralisedLinks

/-!
# What the creation of instances leaves alone

The instances of a simulation are made one after the other, together with instances of links.
What is looked up for the later ones does not depend on the earlier ones: the concepts that
existed before keep their names, their generalisations and their links.

## Main definitions

* `Heap.Instantiated` — objects have been created, as instances are
* `Heap.Extended` — in addition, links keep what they specialise
* `Heap.HasNetwork` — the nodes and links of a network exist

## Main results

* `Extended.withChild`, `Extended.withLink`, `Extended.withLinks` — the steps
* `Instantiated.notProcessedLinks_eq` — what is looked up stays the same
-/

namespace ThinkingUnderstanding

open Math Semantics

namespace Heap

/-- Objects have been created. The concepts that existed keep all but their links, and those
numbered below `n` their links too. -/
structure Instantiated (n : ℕ) (heap t : Heap) : Prop where
  size : heap.concepts.size ≤ t.concepts.size
  uris : heap.uris.Extends t.uris
  links : heap.links.Extends t.links
  phraseLines : heap.phraseLines.Extends t.phraseLines
  concept : ∀ c < heap.concepts.size,
    t.concept c = { heap.concept c with conceptLinks := (t.concept c).conceptLinks }
  conceptLinks : ∀ c < heap.concepts.size, c < n →
    (t.concept c).conceptLinks = (heap.concept c).conceptLinks
  generalisations : ∀ c < heap.concepts.size, t.generalisations c = heap.generalisations c

/-- Objects have been created, and the links that existed keep their generalisations. -/
structure Extended (n : ℕ) (heap t : Heap) : Prop extends Instantiated n heap t where
  lines : ∀ l < heap.links.size,
    (t.linesOfLink l).generalisations = (heap.linesOfLink l).generalisations

theorem WellFormed.withURI {heap : Heap} (wf : heap.WellFormed) (uri : KnowledgeURI) :
    WellFormed { heap with uris := heap.uris.alloc uri } where
  lines := wf.lines
  apart := wf.apart
  generalisations_lt := wf.generalisations_lt
  specialisations_lt := wf.specialisations_lt
  ends := wf.ends
  linked := wf.linked
  uris c inside := (wf.uris c inside).trans_le (Arena.Extends.alloc _ _).size
  linkUris l present := (wf.linkUris l present).trans_le (Arena.Extends.alloc _ _).size

/-- The nodes and the links of a network exist. -/
structure HasNetwork (heap : Heap) (network : ConceptNetwork) : Prop where
  nodes : ∀ c ∈ network.nodes, c < heap.concepts.size
  links : ∀ l ∈ network.links, l < heap.links.size

namespace Instantiated

variable {n : ℕ} {heap t u : Heap} {c : ConceptRef} {l : LinkRef}

theorem refl (n : ℕ) (heap : Heap) : Instantiated n heap heap where
  size := le_rfl
  uris := .refl _
  links := .refl _
  phraseLines := .refl _
  concept _ _ := rfl
  conceptLinks _ _ _ := rfl
  generalisations _ _ := rfl

theorem trans (first : Instantiated n heap t) (second : Instantiated n t u) :
    Instantiated n heap u where
  size := first.size.trans second.size
  uris := first.uris.trans second.uris
  links := first.links.trans second.links
  phraseLines := first.phraseLines.trans second.phraseLines
  concept c inside := by
    rw [second.concept c (inside.trans_le first.size), first.concept c inside]
  conceptLinks c inside below := by
    rw [second.conceptLinks c (inside.trans_le first.size) below, first.conceptLinks c inside below]
  generalisations c inside := by
    rw [second.generalisations c (inside.trans_le first.size), first.generalisations c inside]

/-! ### Steps -/

theorem withChild (wf : heap.WellFormed) {parent : ConceptRef}
    (present : parent < heap.concepts.size) {line : LineRef}
    (has : (heap.concept parent).specialisations = some line) (content : KnowledgeString)
    (uri : KnowledgeURI) : Instantiated n heap (heap.withChild parent line content uri) where
  size := (Nat.le_succ _).trans_eq (size_concepts_constructed _ content uri).symm
  uris := .alloc _ _
  links := .refl _
  phraseLines := .alloc _ _
  concept c inside := by
    have same : (heap.withChild parent line content uri).concept c = heap.concept c :=
      concept_constructed_of_ne _ content uri inside.ne
    rw [same]
  conceptLinks c inside _ :=
    congrArg Concept.conceptLinks (concept_constructed_of_ne _ content uri inside.ne)
  generalisations c inside := by
    rw [Heap.generalisations_withChild wf present has, if_neg inside.ne]

theorem withLink (source destination : ConceptRef) (uri : KnowledgeURI)
    (probability : Probability) :
    Instantiated n heap (heap.withLink source destination uri probability) where
  size := le_rfl
  uris := .alloc _ _
  links := .alloc _ _
  phraseLines := .refl _
  concept _ _ := rfl
  conceptLinks _ _ _ := rfl
  generalisations _ _ := rfl

theorem withLinkLines (grown : Instantiated n heap t) (lines : Arena LinkLines) :
    Instantiated n heap (t.withLinkLines lines) where
  size := grown.size
  uris := grown.uris
  links := grown.links
  phraseLines := grown.phraseLines
  concept := grown.concept
  conceptLinks := grown.conceptLinks
  generalisations := grown.generalisations

/-- Only the links of a new concept are assigned. -/
theorem withLinks (inside : c < heap.concepts.size) (new : n ≤ c) (links : List LinkRef) :
    Instantiated n heap (heap.withLinks c links) where
  size := (size_concepts_withLinks inside links).ge
  uris := .refl _
  links := .refl _
  phraseLines := .refl _
  concept d _ := by
    rw [concept_withLinks]
    split
    case isTrue same => rw [same]
    case isFalse => rfl
  conceptLinks d _ below := by
    rw [concept_withLinks, if_neg (below.trans_le new).ne]
  generalisations d _ := by
    rw [Heap.generalisations, generalisations_withLinks]
    rfl

/-! ### What is looked up -/

theorem uriOf_eq (grown : Instantiated n heap t) (wf : heap.WellFormed)
    (inside : c < heap.concepts.size) : t.uriOf c = heap.uriOf c := by
  rw [uriOf, grown.concept c inside]
  exact grown.uris.get _ (wf.uris c inside)

theorem link_eq (grown : Instantiated n heap t) (present : l < heap.links.size) :
    t.link l = heap.link l := grown.links.get l present

theorem linkName_eq (grown : Instantiated n heap t) (wf : heap.WellFormed)
    (present : l < heap.links.size) : t.linkName l = heap.linkName l := by
  rw [linkName, grown.link_eq present]
  exact congrArg KnowledgeURI.name (grown.uris.get _ (wf.linkUris l present))

theorem otherEnd_eq (grown : Instantiated n heap t) (present : l < heap.links.size)
    (c : ConceptRef) : t.otherEnd c l = heap.otherEnd c l := by
  rw [otherEnd, grown.link_eq present, otherEnd]

theorem otherEnd_lt (wf : heap.WellFormed) (present : l < heap.links.size) (c : ConceptRef) :
    heap.otherEnd c l < heap.concepts.size := by
  rw [otherEnd]
  split
  · exact (wf.ends l present).2
  · exact (wf.ends l present).1

theorem generalisationsList_eq (grown : Instantiated n heap t) (inside : c < heap.concepts.size) :
    t.generalisationsList c = heap.generalisationsList c := by
  rw [generalisationsList, grown.generalisations c inside, generalisationsList]

theorem getGeneralisationsRec_eq (grown : Instantiated n heap t) (wf : heap.WellFormed)
    (depth : ℕ) (inside : c < heap.concepts.size) :
    t.getGeneralisationsRec depth c = heap.getGeneralisationsRec depth c := by
  induction depth generalizing c with
  | zero => rfl
  | succ depth ih =>
    have above := mapM_congr fun g (member : g ∈ (heap.generalisations c).values) =>
      ih (wf.generalisations_lt c g member)
    rw [getGeneralisationsRec, getGeneralisationsRec, grown.generalisations c inside, above]

/-- Collected generalisations exist. -/
theorem getGeneralisationsRec_lt (wf : heap.WellFormed) {depth : ℕ} {collected : List ConceptRef}
    (result : heap.getGeneralisationsRec depth c = some collected) {a : ConceptRef}
    (member : a ∈ collected) : a < heap.concepts.size := by
  obtain ⟨g, general, up⟩ := (mem_getGeneralisationsRec_iff result).mp member
  have inside := wf.generalisations_lt c g general
  induction up with
  | refl => exact inside
  | tail _ step _ => exact wf.generalisations_lt _ _ step

theorem selectWithGeneralisations_eq (grown : Instantiated n heap t) (wf : heap.WellFormed)
    (depth : ℕ) (inside : c < heap.concepts.size) {checkList : List ConceptRef}
    (present : ∀ d ∈ checkList, d < heap.concepts.size) :
    t.selectWithGeneralisations depth c checkList =
      heap.selectWithGeneralisations depth c checkList := by
  apply filterM_congr
  intro d member
  rw [grown.getGeneralisationsRec_eq wf depth (present d member)]
  cases result : heap.getGeneralisationsRec depth d with
  | none => rfl
  | some collected =>
    have names : ∀ a ∈ collected, decide ((t.uriOf a).name = (heap.uriOf c).name) =
        decide ((heap.uriOf a).name = (heap.uriOf c).name) := by
      intro a above
      rw [grown.uriOf_eq wf (getGeneralisationsRec_lt wf result above)]
    simp only [Option.bind_eq_bind, Option.bind_some, grown.uriOf_eq wf inside,
      List.filter_congr names, grown.uriOf_eq wf (present d member)]

theorem filteredConceptLinks_eq (grown : Instantiated heap.concepts.size heap t)
    (wf : heap.WellFormed) (depth : ℕ) (inside : c < heap.concepts.size)
    {incidentConcepts : List ConceptRef}
    (present : ∀ d ∈ incidentConcepts, d < heap.concepts.size) :
    t.filteredConceptLinks depth incidentConcepts c =
      heap.filteredConceptLinks depth incidentConcepts c := by
  rw [filteredConceptLinks, grown.conceptLinks c inside inside]
  apply filterM_congr
  intro l member
  have there := wf.linked c l member
  rw [grown.otherEnd_eq there,
    grown.selectWithGeneralisations_eq wf depth (otherEnd_lt wf there c) present]

theorem getGeneralisedLinks_eq (grown : Instantiated heap.concepts.size heap t)
    (wf : heap.WellFormed) (depth : ℕ) (inside : c < heap.concepts.size)
    {incidentConcepts : List ConceptRef}
    (present : ∀ d ∈ incidentConcepts, d < heap.concepts.size) :
    t.getGeneralisedLinks incidentConcepts depth c =
      heap.getGeneralisedLinks incidentConcepts depth c := by
  induction depth generalizing c with
  | zero => rfl
  | succ depth ih =>
    have above := mapM_congr fun g (member : g ∈ (heap.generalisations c).values) =>
      ih (wf.generalisations_lt c g member)
    rw [getGeneralisedLinks, getGeneralisedLinks, grown.generalisations c inside, above,
      grown.filteredConceptLinks_eq wf depth inside present]

variable {network : ConceptNetwork}

theorem getNodeByName_eq (grown : Instantiated n heap t) (wf : heap.WellFormed)
    (holds : heap.HasNetwork network) (name : String) :
    t.getNodeByName network name = heap.getNodeByName network name := by
  apply List.filter_congr
  intro c member
  rw [grown.uriOf_eq wf (holds.nodes c member)]

theorem getLinkByName_eq (grown : Instantiated n heap t) (wf : heap.WellFormed)
    (holds : heap.HasNetwork network) (textCase : TextCase) (name : String) :
    t.getLinkByName textCase network name = heap.getLinkByName textCase network name := by
  apply List.filter_congr
  intro l member
  rw [grown.linkName_eq wf (holds.links l member)]

theorem incidentLinksNotProcessed_eq (grown : Instantiated heap.concepts.size heap t)
    (wf : heap.WellFormed) (holds : heap.HasNetwork network) (textCase : TextCase)
    (processed : List ConceptRef) (inside : c < heap.concepts.size) :
    t.incidentLinksNotProcessed textCase network processed c =
      heap.incidentLinksNotProcessed textCase network processed c := by
  rw [incidentLinksNotProcessed, grown.conceptLinks c inside inside]
  apply List.filter_congr
  intro l member
  have there := wf.linked c l member
  rw [grown.linkName_eq wf there, grown.getLinkByName_eq wf holds, grown.link_eq there]

/-- The links that an instance is given do not depend on what instances there are already. -/
theorem notProcessedLinks_eq (grown : Instantiated heap.concepts.size heap t)
    (wf : heap.WellFormed) (holds : heap.HasNetwork network) (textCase : TextCase) (depth : ℕ)
    {concepts : List ConceptRef} (present : ∀ d ∈ concepts, d < heap.concepts.size)
    (processed : List ConceptRef) (inside : c < heap.concepts.size) :
    t.notProcessedLinks textCase network depth concepts processed c =
      heap.notProcessedLinks textCase network depth concepts processed c := by
  have modelLinks : ∀ incident,
      t.modelLinksNotProcessed network depth concepts incident c =
        heap.modelLinksNotProcessed network depth concepts incident c := by
    intro incident
    rw [modelLinksNotProcessed, modelLinksNotProcessed, grown.uriOf_eq wf inside,
      grown.getNodeByName_eq wf holds]
    cases found : heap.getNodeByName network (heap.uriOf c).name with
    | nil => rfl
    | cons modelConcept _ =>
      have member : modelConcept ∈ network.nodes :=
        List.mem_of_mem_filter (found ▸ List.mem_cons_self)
      have inside' := holds.nodes modelConcept member
      simp only [grown.conceptLinks modelConcept inside' inside',
        grown.getGeneralisedLinks_eq wf depth inside' present]
  rw [notProcessedLinks, notProcessedLinks, grown.incidentLinksNotProcessed_eq wf holds textCase
    processed inside, modelLinks]

end Instantiated

/-! ### The same steps, for the lines of knowledge of links -/

namespace Extended

variable {m n : ℕ} {heap t u : Heap} {c : ConceptRef}

theorem refl (n : ℕ) (heap : Heap) : Extended n heap heap := ⟨.refl n heap, fun _ _ => rfl⟩

theorem trans (first : Extended n heap t) (second : Extended n t u) : Extended n heap u where
  toInstantiated := first.toInstantiated.trans second.toInstantiated
  lines l present := by
    rw [second.lines l (present.trans_le first.links.size), first.lines l present]

theorem mono (extended : Extended n heap t) (le : m ≤ n) : Extended m heap t :=
  { extended with
    conceptLinks := fun c inside below => extended.conceptLinks c inside (below.trans_le le) }

theorem withChild (wf : heap.WellFormed) {parent : ConceptRef}
    (present : parent < heap.concepts.size) {line : LineRef}
    (has : (heap.concept parent).specialisations = some line) (content : KnowledgeString)
    (uri : KnowledgeURI) : Extended n heap (heap.withChild parent line content uri) :=
  ⟨.withChild wf present has content uri, fun _ _ => rfl⟩

theorem withLink (source destination : ConceptRef) (uri : KnowledgeURI)
    (probability : Probability) :
    Extended n heap (heap.withLink source destination uri probability) :=
  ⟨.withLink source destination uri probability, fun _ _ => rfl⟩

theorem withLinks (inside : c < heap.concepts.size) (new : n ≤ c) (links : List LinkRef) :
    Extended n heap (heap.withLinks c links) :=
  ⟨.withLinks inside new links, fun _ _ => rfl⟩

/-- A new URI object changes nothing else. -/
theorem withURI (n : ℕ) (heap : Heap) (uri : KnowledgeURI) :
    Extended n heap { heap with uris := heap.uris.alloc uri } where
  size := le_rfl
  uris := .alloc _ _
  links := .refl _
  phraseLines := .refl _
  concept _ _ := rfl
  conceptLinks _ _ _ := rfl
  generalisations _ _ := rfl
  lines _ _ := rfl

/-- What a link specialises when a link is filed under its parent. -/
theorem generalisations_filedUnder (heap : Heap) (parent it l : LinkRef) :
    ((heap.withLinkLines (heap.filedUnder parent it)).linesOfLink l).generalisations =
      if l = it then TypedKLine.add {} (heap.link parent).uri parent
      else (heap.linesOfLink l).generalisations := by
  have created : ∀ l, ((heap.linkLines.modify it fun _ =>
      { generalisations := TypedKLine.add {} (heap.link parent).uri parent }).get l).generalisations =
        if l = it then TypedKLine.add {} (heap.link parent).uri parent
        else (heap.linesOfLink l).generalisations := by
    intro l
    rw [Arena.get_modify]
    split <;> rfl
  rw [linesOfLink, Heap.withLinkLines, filedUnder, Arena.get_modify]
  -- the parent is changed in its specialisations only
  split
  case isTrue same => exact same ▸ created parent
  case isFalse => exact created l

/-- A new link is filed under its parent. -/
theorem withLinkLines (extended : Extended n heap t) (parent : LinkRef) {it : LinkRef}
    (new : heap.links.size ≤ it) :
    Extended n heap (t.withLinkLines (t.filedUnder parent it)) where
  toInstantiated := extended.toInstantiated.withLinkLines _
  lines l present := by
    rw [generalisations_filedUnder, if_neg (present.trans_le new).ne, extended.lines l present]

end Extended

end Heap

end ThinkingUnderstanding
