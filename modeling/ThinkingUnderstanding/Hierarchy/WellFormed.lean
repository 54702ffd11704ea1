import ThinkingUnderstanding.Hierarchy.Operations
import ThinkingUnderstanding.Semantics.StateProgram

/-!
# Heaps on which the hierarchy operations work

In a well-formed heap every concept has its two lines of knowledge of concepts, no line
serves as generalisations of one concept and as specialisations of another, and what lines
and links refer to exists. The steps that the operations are made of keep a heap well-formed,
and it is known for each what lines of knowledge the concepts have afterwards.

## Main definitions

* `Heap.WellFormed`
* `Heap.constructed`, `Heap.withLinks`, `Heap.withLine`, `Heap.withLink` — the steps

## Main results

* `generalisations_constructed`, `generalisations_withLine` — the lines after a step
* `WellFormed.constructed`, `WellFormed.withLine` — steps keep a heap well-formed
-/

namespace ThinkingUnderstanding

open Math

namespace Heap

/-- Every concept has its lines of knowledge, lines of generalisations and of
specialisations are different, and only existing concepts and links are referred to. -/
structure WellFormed (heap : Heap) : Prop where
  lines : ∀ c < heap.concepts.size, ∃ g s, (heap.concept c).generalisations = some g ∧
    (heap.concept c).specialisations = some s ∧
      g < heap.conceptLines.size ∧ s < heap.conceptLines.size
  apart : ∀ c d l, (heap.concept c).generalisations = some l →
    (heap.concept d).specialisations ≠ some l
  generalisations_lt : ∀ c, ∀ g ∈ (heap.generalisations c).values, g < heap.concepts.size
  specialisations_lt : ∀ c, ∀ s ∈ (heap.specialisations c).values, s < heap.concepts.size
  ends : ∀ l < heap.links.size, (heap.link l).source < heap.concepts.size ∧
    (heap.link l).destination < heap.concepts.size
  linked : ∀ c, ∀ l ∈ (heap.concept c).conceptLinks, l < heap.links.size
  uris : ∀ c < heap.concepts.size, (heap.concept c).uri < heap.uris.size
  linkUris : ∀ l < heap.links.size, (heap.link l).uri < heap.uris.size

/-- The heap without objects. -/
theorem wellFormed_empty : WellFormed {} where
  lines _ inside := absurd inside (Nat.not_lt_zero _)
  apart _ _ _ has := nomatch has
  generalisations_lt _ _ member := nomatch member
  specialisations_lt _ _ member := nomatch member
  ends _ inside := absurd inside (Nat.not_lt_zero _)
  linked _ _ member := nomatch member
  uris _ inside := absurd inside (Nat.not_lt_zero _)
  linkUris _ inside := absurd inside (Nat.not_lt_zero _)

variable {heap : Heap} {c d : ConceptRef} {l : LineRef}

theorem WellFormed.generalisations_line_lt (wf : heap.WellFormed)
    (has : (heap.concept c).generalisations = some l) : l < heap.conceptLines.size := by
  rcases lt_or_ge c heap.concepts.size with inside | beyond
  · obtain ⟨g, s, hasg, -, inside', -⟩ := wf.lines c inside
    rw [has, Option.some_inj] at hasg
    exact hasg ▸ inside'
  · rw [concept_of_size_le beyond] at has
    cases has

theorem WellFormed.specialisations_line_lt (wf : heap.WellFormed)
    (has : (heap.concept c).specialisations = some l) : l < heap.conceptLines.size := by
  rcases lt_or_ge c heap.concepts.size with inside | beyond
  · obtain ⟨g, s, -, hass, -, inside'⟩ := wf.lines c inside
    rw [has, Option.some_inj] at hass
    exact hass ▸ inside'
  · rw [concept_of_size_le beyond] at has
    cases has

/-! ### A new concept -/

/-- The heap after the construction of a concept. -/
def constructed (heap : Heap) (generalisations : TypedKLine ConceptRef)
    (content : KnowledgeString) (uri : KnowledgeURI) : Heap :=
  { heap with
    uris := heap.uris.alloc uri
    conceptLines := (heap.conceptLines.alloc generalisations).alloc {}
    phraseLines := heap.phraseLines.alloc {}
    concepts := heap.concepts.alloc
      { generalisations := some heap.conceptLines.size
        specialisations := some (heap.conceptLines.alloc generalisations).size
        phrases := some heap.phraseLines.size
        content
        uri := heap.uris.size } }

theorem run_construct (line : TypedKLine ConceptRef) (content : KnowledgeString)
    (uri : KnowledgeURI) : (Concept.construct line content uri).run heap =
      .ok heap.concepts.size (heap.constructed line content uri) := rfl

section Constructed

variable (line : TypedKLine ConceptRef) (content : KnowledgeString) (uri : KnowledgeURI)

theorem concept_constructed_of_ne (other : c ≠ heap.concepts.size) :
    (heap.constructed line content uri).concept c = heap.concept c :=
  heap.concepts.get_alloc_of_ne other _

theorem concept_constructed_self :
    (heap.constructed line content uri).concept heap.concepts.size =
      { generalisations := some heap.conceptLines.size
        specialisations := some (heap.conceptLines.size + 1)
        phrases := some heap.phraseLines.size
        content
        uri := heap.uris.size } := by
  rw [concept, constructed, Arena.get_alloc_size, Arena.size_alloc]

theorem conceptLines_constructed_of_lt (present : l < heap.conceptLines.size) :
    (heap.constructed line content uri).conceptLines.get l = heap.conceptLines.get l := by
  have below : l < (heap.conceptLines.alloc line).size := by
    rw [Arena.size_alloc]
    exact present.trans (Nat.lt_succ_self _)
  rw [constructed, Arena.get_alloc_of_lt _ below, Arena.get_alloc_of_lt _ present]

theorem size_concepts_constructed :
    (heap.constructed line content uri).concepts.size = heap.concepts.size + 1 :=
  Arena.size_alloc ..

theorem size_uris_constructed :
    (heap.constructed line content uri).uris.size = heap.uris.size + 1 :=
  Arena.size_alloc ..

/-- The new concept has the given generalisations; the others keep theirs. -/
theorem generalisations_constructed (wf : heap.WellFormed) (c : ConceptRef) :
    (heap.constructed line content uri).generalisations c =
      if c = heap.concepts.size then line else heap.generalisations c := by
  split
  case isTrue same =>
    subst same
    rw [generalisations, concept_constructed_self, Option.elim_some, constructed,
      Arena.get_alloc_of_lt _ (by simp), Arena.get_alloc_size]
  case isFalse other =>
    rw [generalisations, generalisations, concept_constructed_of_ne _ _ _ other]
    cases has : (heap.concept c).generalisations with
    | none => rfl
    | some l => exact conceptLines_constructed_of_lt _ _ _ (wf.generalisations_line_lt has)

/-- The new concept has no specialisations; the others keep theirs. -/
theorem specialisations_constructed (wf : heap.WellFormed) (c : ConceptRef) :
    (heap.constructed line content uri).specialisations c =
      if c = heap.concepts.size then {} else heap.specialisations c := by
  split
  case isTrue same =>
    subst same
    rw [specialisations, concept_constructed_self, Option.elim_some, constructed]
    have size : heap.conceptLines.size + 1 = (heap.conceptLines.alloc line).size :=
      (Arena.size_alloc ..).symm
    rw [size, Arena.get_alloc_size]
  case isFalse other =>
    rw [specialisations, specialisations, concept_constructed_of_ne _ _ _ other]
    cases has : (heap.concept c).specialisations with
    | none => rfl
    | some l => exact conceptLines_constructed_of_lt _ _ _ (wf.specialisations_line_lt has)

end Constructed

theorem WellFormed.constructed (wf : heap.WellFormed) {line : TypedKLine ConceptRef}
    (inside : ∀ g ∈ line.values, g < heap.concepts.size) (content : KnowledgeString)
    (uri : KnowledgeURI) : (heap.constructed line content uri).WellFormed where
  lines c inside := by
    rw [size_concepts_constructed] at inside
    have size : (heap.constructed line content uri).conceptLines.size =
        heap.conceptLines.size + 2 := by
      rw [Heap.constructed, Arena.size_alloc, Arena.size_alloc]
    rw [size]
    rcases Nat.lt_succ_iff_lt_or_eq.mp inside with old | rfl
    · rw [concept_constructed_of_ne _ _ _ old.ne]
      obtain ⟨g, s, hasg, hass, gInside, sInside⟩ := wf.lines c old
      have grown : heap.conceptLines.size < heap.conceptLines.size + 2 :=
        Nat.lt_add_of_pos_right Nat.two_pos
      exact ⟨g, s, hasg, hass, gInside.trans grown, sInside.trans grown⟩
    · rw [concept_constructed_self]
      exact ⟨_, _, rfl, rfl, Nat.lt_add_of_pos_right Nat.two_pos, Nat.lt_succ_self _⟩
  -- the two lines of a new concept are allocated one after the other
  apart c d l has has' := by
    by_cases newc : c = heap.concepts.size
    · subst newc
      rw [concept_constructed_self, Option.some_inj] at has
      by_cases newd : d = heap.concepts.size
      · subst newd
        rw [concept_constructed_self, Option.some_inj] at has'
        exact Nat.succ_ne_self _ (has'.trans has.symm)
      · rw [concept_constructed_of_ne _ _ _ newd] at has'
        exact (wf.specialisations_line_lt has').ne' has
    · rw [concept_constructed_of_ne _ _ _ newc] at has
      by_cases newd : d = heap.concepts.size
      · subst newd
        rw [concept_constructed_self, Option.some_inj] at has'
        exact (Nat.lt_succ_of_lt (wf.generalisations_line_lt has)).ne' has'
      · rw [concept_constructed_of_ne _ _ _ newd] at has'
        exact wf.apart c d l has has'
  generalisations_lt c g member := by
    rw [generalisations_constructed _ _ _ wf] at member
    rw [size_concepts_constructed]
    split at member
    · exact (inside g member).trans (Nat.lt_succ_self _)
    · exact (wf.generalisations_lt c g member).trans (Nat.lt_succ_self _)
  specialisations_lt c s member := by
    rw [specialisations_constructed _ _ _ wf] at member
    rw [size_concepts_constructed]
    split at member
    · cases member
    · exact (wf.specialisations_lt c s member).trans (Nat.lt_succ_self _)
  ends l inside := by
    rw [size_concepts_constructed]
    obtain ⟨source, destination⟩ := wf.ends l inside
    exact ⟨source.trans (Nat.lt_succ_self _), destination.trans (Nat.lt_succ_self _)⟩
  linked c l member := by
    by_cases new : c = heap.concepts.size
    · subst new
      rw [concept_constructed_self] at member
      cases member
    · rw [concept_constructed_of_ne _ _ _ new] at member
      exact wf.linked c l member
  uris c inside := by
    rw [size_concepts_constructed, Nat.lt_succ_iff_lt_or_eq] at inside
    rw [size_uris_constructed]
    rcases inside with old | rfl
    · rw [concept_constructed_of_ne _ _ _ old.ne]
      exact (wf.uris c old).trans (Nat.lt_succ_self _)
    · rw [concept_constructed_self]
      exact Nat.lt_succ_self _
  linkUris l inside := by
    rw [size_uris_constructed]
    exact (wf.linkUris l inside).trans (Nat.lt_succ_self _)

/-! ### Another content of a line -/

/-- The heap after a change of a line of knowledge. -/
def withLine (heap : Heap) (line : LineRef)
    (f : TypedKLine ConceptRef → TypedKLine ConceptRef) : Heap :=
  { heap with conceptLines := heap.conceptLines.modify line f }

section WithLine

variable (line : LineRef) (f : TypedKLine ConceptRef → TypedKLine ConceptRef)

/-- The concepts that have the line as their generalisations get the changed one. -/
theorem generalisations_withLine (c : ConceptRef) :
    (heap.withLine line f).generalisations c =
      if (heap.concept c).generalisations = some line then f (heap.generalisations c)
      else heap.generalisations c := by
  change ((heap.concept c).generalisations.elim {} (heap.conceptLines.modify line f).get) = _
  rw [generalisations]
  cases (heap.concept c).generalisations with
  | none => rfl
  | some l =>
    simp only [Option.elim_some, Arena.get_modify, Option.some_inj]
    split
    case isTrue same => rw [same]
    case isFalse => rfl

theorem specialisations_withLine (c : ConceptRef) :
    (heap.withLine line f).specialisations c =
      if (heap.concept c).specialisations = some line then f (heap.specialisations c)
      else heap.specialisations c := by
  change ((heap.concept c).specialisations.elim {} (heap.conceptLines.modify line f).get) = _
  rw [specialisations]
  cases (heap.concept c).specialisations with
  | none => rfl
  | some l =>
    simp only [Option.elim_some, Arena.get_modify, Option.some_inj]
    split
    case isTrue same => rw [same]
    case isFalse => rfl

end WithLine

theorem run_specialisationsAdd {line : LineRef}
    (has : (heap.concept c).specialisations = some line) (it : ConceptRef) :
    (Concept.specialisationsAdd c it).run heap =
      .ok () (heap.withLine line fun l => l.add (heap.concept it).uri it) := by
  simp only [Concept.specialisationsAdd, EStateM.run_bind, EStateM.run_get, has]
  rfl

theorem run_modifyGeneralisations {line : LineRef}
    (has : (heap.concept c).generalisations = some line)
    (f : TypedKLine ConceptRef → TypedKLine ConceptRef) :
    (Concept.modifyGeneralisations c f).run heap = .ok () (heap.withLine line f) := by
  simp only [Concept.modifyGeneralisations, EStateM.run_bind, EStateM.run_get, has]
  rfl

theorem run_generalisationsAdd {line : LineRef}
    (has : (heap.concept c).generalisations = some line) (g : ConceptRef) :
    (Concept.generalisationsAdd c g).run heap =
      .ok () (heap.withLine line fun l => l.add (heap.concept g).uri g) :=
  run_modifyGeneralisations has _

theorem WellFormed.withLine (wf : heap.WellFormed) {line : LineRef}
    {f : TypedKLine ConceptRef → TypedKLine ConceptRef}
    (inside : ∀ l : TypedKLine ConceptRef, (∀ r ∈ l.values, r < heap.concepts.size) →
      ∀ r ∈ (f l).values, r < heap.concepts.size) : (heap.withLine line f).WellFormed where
  lines c inside := by
    obtain ⟨g, s, hasg, hass, gInside, sInside⟩ := wf.lines c inside
    have grown := heap.conceptLines.size_le_size_modify line f
    exact ⟨g, s, hasg, hass, gInside.trans_le grown, sInside.trans_le grown⟩
  apart := wf.apart
  generalisations_lt c := by
    rw [generalisations_withLine]
    split
    · exact inside _ (wf.generalisations_lt c)
    · exact wf.generalisations_lt c
  specialisations_lt c := by
    rw [specialisations_withLine]
    split
    · exact inside _ (wf.specialisations_lt c)
    · exact wf.specialisations_lt c
  ends := wf.ends
  linked := wf.linked
  uris := wf.uris
  linkUris := wf.linkUris

/-! ### Links -/

/-- The heap after an assignment of links to a concept. -/
def withLinks (heap : Heap) (c : ConceptRef) (links : List LinkRef) : Heap :=
  { heap with
    concepts := heap.concepts.modify c fun concept => { concept with conceptLinks := links } }

/-- A concept keeps all but its links. -/
theorem concept_withLinks (c : ConceptRef) (links : List LinkRef) (d : ConceptRef) :
    (heap.withLinks c links).concept d =
      if d = c then { heap.concept c with conceptLinks := links } else heap.concept d := by
  rw [concept, withLinks, Arena.get_modify]
  rfl

theorem generalisations_withLinks (c : ConceptRef) (links : List LinkRef) (d : ConceptRef) :
    ((heap.withLinks c links).concept d).generalisations = (heap.concept d).generalisations := by
  rw [concept_withLinks]
  split
  case isTrue same => rw [same]
  case isFalse => rfl

theorem specialisations_withLinks (c : ConceptRef) (links : List LinkRef) (d : ConceptRef) :
    ((heap.withLinks c links).concept d).specialisations = (heap.concept d).specialisations := by
  rw [concept_withLinks]
  split
  case isTrue same => rw [same]
  case isFalse => rfl

theorem uri_withLinks (c : ConceptRef) (links : List LinkRef) (d : ConceptRef) :
    ((heap.withLinks c links).concept d).uri = (heap.concept d).uri := by
  rw [concept_withLinks]
  split
  case isTrue same => rw [same]
  case isFalse => rfl

theorem size_concepts_withLinks (inside : c < heap.concepts.size) (links : List LinkRef) :
    (heap.withLinks c links).concepts.size = heap.concepts.size :=
  max_eq_left inside

theorem WellFormed.withLinks (wf : heap.WellFormed) (inside : c < heap.concepts.size)
    {links : List LinkRef} (present : ∀ l ∈ links, l < heap.links.size) :
    (heap.withLinks c links).WellFormed where
  lines d := by
    rw [size_concepts_withLinks inside, generalisations_withLinks, specialisations_withLinks]
    exact wf.lines d
  apart d d' := by
    rw [generalisations_withLinks, specialisations_withLinks]
    exact wf.apart d d'
  generalisations_lt d := by
    rw [size_concepts_withLinks inside, generalisations, generalisations_withLinks]
    exact wf.generalisations_lt d
  specialisations_lt d := by
    rw [size_concepts_withLinks inside, specialisations, specialisations_withLinks]
    exact wf.specialisations_lt d
  ends := by
    rw [size_concepts_withLinks inside]
    exact wf.ends
  linked d := by
    rw [concept_withLinks]
    split
    · exact present
    · exact wf.linked d
  uris d := by
    rw [size_concepts_withLinks inside, uri_withLinks]
    exact wf.uris d
  linkUris := wf.linkUris

/-- The heap after the creation of a link. -/
def withLink (heap : Heap) (source destination : ConceptRef) (uri : KnowledgeURI)
    (probability : Probability) : Heap :=
  { heap with
    uris := heap.uris.alloc uri
    links := heap.links.alloc { source, destination, uri := heap.uris.size, probability } }

theorem WellFormed.withLink (wf : heap.WellFormed) {source destination : ConceptRef}
    (inside : source < heap.concepts.size ∧ destination < heap.concepts.size)
    (uri : KnowledgeURI) (probability : Probability) :
    (heap.withLink source destination uri probability).WellFormed where
  lines := wf.lines
  apart := wf.apart
  generalisations_lt := wf.generalisations_lt
  specialisations_lt := wf.specialisations_lt
  ends l present := by
    rw [Heap.withLink, Arena.size_alloc, Nat.lt_succ_iff_lt_or_eq] at present
    rcases present with old | rfl
    · rw [link, Heap.withLink, Arena.get_alloc_of_lt _ old]
      exact wf.ends l old
    · rw [link, Heap.withLink, Arena.get_alloc_size]
      exact inside
  linked c l member := by
    rw [Heap.withLink, Arena.size_alloc]
    exact (wf.linked c l member).trans (Nat.lt_succ_self _)
  uris c inside := by
    rw [Heap.withLink, Arena.size_alloc]
    exact (wf.uris c inside).trans (Nat.lt_succ_self _)
  linkUris l present := by
    rw [Heap.withLink, Arena.size_alloc, Nat.lt_succ_iff_lt_or_eq] at present
    rw [link, Heap.withLink, Arena.size_alloc]
    rcases present with old | rfl
    · rw [Arena.get_alloc_of_lt _ old]
      exact (wf.linkUris l old).trans (Nat.lt_succ_self _)
    · rw [Arena.get_alloc_size]
      exact Nat.lt_succ_self _

/-- The heap after an assignment of the lines of knowledge of links. -/
def withLinkLines (heap : Heap) (lines : Arena LinkLines) : Heap := { heap with linkLines := lines }

theorem WellFormed.withLinkLines (wf : heap.WellFormed) (lines : Arena LinkLines) :
    (heap.withLinkLines lines).WellFormed where
  lines := wf.lines
  apart := wf.apart
  generalisations_lt := wf.generalisations_lt
  specialisations_lt := wf.specialisations_lt
  ends := wf.ends
  linked := wf.linked
  uris := wf.uris
  linkUris := wf.linkUris

/-- The heap after the creation of a link under its parent, when it has been added to the links
of both its ends. -/
def withSubLink (heap : Heap) (parent : LinkRef) (source destination : ConceptRef)
    (uri : KnowledgeURI) (probability : Probability) : Heap :=
  let it := heap.links.size
  let made := heap.withLink source destination uri probability
  let filed := made.withLinkLines (made.filedUnder parent it)
  let linked := filed.withLinks source ((filed.concept source).conceptLinks ++ [it])
  linked.withLinks destination ((linked.concept destination).conceptLinks ++ [it])

theorem size_concepts_withSubLink {source destination : ConceptRef}
    (inside : source < heap.concepts.size ∧ destination < heap.concepts.size) (parent : LinkRef)
    (uri : KnowledgeURI) (probability : Probability) :
    (heap.withSubLink parent source destination uri probability).concepts.size =
      heap.concepts.size := by
  rw [withSubLink, size_concepts_withLinks, size_concepts_withLinks]
  · rfl
  · exact inside.1
  · rw [size_concepts_withLinks]
    · exact inside.2
    · exact inside.1

/-- What the creation of a link keeps, and the filing of links and their assignment. -/
theorem withSubLink_induction {I : Heap → Prop} (wf : ∀ heap, I heap → heap.WellFormed)
    (link : ∀ heap source destination uri probability, I heap →
      source < heap.concepts.size ∧ destination < heap.concepts.size →
        I (heap.withLink source destination uri probability))
    (file : ∀ heap lines, I heap → I (heap.withLinkLines lines))
    (assign : ∀ heap c links, I heap → c < heap.concepts.size →
      (∀ l ∈ links, l < heap.links.size) → I (heap.withLinks c links))
    (holds : I heap) {source destination : ConceptRef}
    (inside : source < heap.concepts.size ∧ destination < heap.concepts.size) (parent : LinkRef)
    (uri : KnowledgeURI) (probability : Probability) :
    I (heap.withSubLink parent source destination uri probability) := by
  let made := heap.withLink source destination uri probability
  let filed := made.withLinkLines (made.filedUnder parent heap.links.size)
  let linked := filed.withLinks source ((filed.concept source).conceptLinks ++ [heap.links.size])
  have present : heap.links.size < filed.links.size :=
    (Arena.size_alloc .. : filed.links.size = heap.links.size + 1) ▸ Nat.lt_succ_self _
  have first : I filed := file made _ (link heap source destination uri probability holds inside)
  -- the link is added at its source first, and then at its destination
  have second : I linked := by
    apply assign filed source _ first inside.1
    rw [List.forall_mem_append]
    exact ⟨(wf filed first).linked source, List.forall_mem_singleton.mpr present⟩
  have inside' : destination < linked.concepts.size := by
    rw [size_concepts_withLinks]
    · exact inside.2
    · exact inside.1
  apply assign linked destination _ second inside'
  rw [List.forall_mem_append]
  exact ⟨(wf linked second).linked destination, List.forall_mem_singleton.mpr present⟩

/-! ### A new child -/

/-- The line of a new child files its parent only. -/
theorem eq_of_mem_parent {uri : UriRef} {parent g : ConceptRef}
    (member : g ∈ (TypedKLine.add {} uri parent).values) : g = parent := by
  rcases TypedKLine.eq_or_mem_of_mem_values_add member with same | none
  · exact same
  · cases none

/-- The heap after the creation of a child, whose parent has the given line of
specialisations. -/
def withChild (heap : Heap) (parent : ConceptRef) (line : LineRef) (content : KnowledgeString)
    (uri : KnowledgeURI) : Heap :=
  (heap.constructed (TypedKLine.add {} (heap.concept parent).uri parent) content uri).withLine line
    fun l => l.add heap.uris.size heap.concepts.size

theorem run_createChild {parent : ConceptRef} (present : parent < heap.concepts.size)
    {line : LineRef} (has : (heap.concept parent).specialisations = some line)
    (content : String) (uri : KnowledgeURI) :
    (Concept.createChild parent content uri).run heap =
      .ok heap.concepts.size
        (heap.withChild parent line { value := content, name := content } uri) := by
  let made := heap.constructed (TypedKLine.add {} (heap.concept parent).uri parent)
    { value := content, name := content } uri
  have has' : (made.concept parent).specialisations = some line := by
    rw [concept_constructed_of_ne _ _ _ present.ne, has]
  have same : (made.concept heap.concepts.size).uri = heap.uris.size := by
    rw [concept_constructed_self]
  change (Concept.specialisationsAdd parent heap.concepts.size >>= fun _ =>
    pure heap.concepts.size).run made = _
  rw [EStateM.run_bind, run_specialisationsAdd has', same]
  rfl

theorem WellFormed.withChild (wf : heap.WellFormed) {parent : ConceptRef}
    (present : parent < heap.concepts.size) (line : LineRef) (content : KnowledgeString)
    (uri : KnowledgeURI) : (heap.withChild parent line content uri).WellFormed := by
  have inside : ∀ g ∈ (TypedKLine.add {} (heap.concept parent).uri parent).values,
      g < heap.concepts.size := fun g member => eq_of_mem_parent member ▸ present
  apply (wf.constructed inside content uri).withLine
  intro l old r member
  rcases TypedKLine.eq_or_mem_of_mem_values_add member with rfl | before
  · rw [size_concepts_constructed]
    exact Nat.lt_succ_self _
  · exact old r before

/-- The new concept has its parent as its only generalisation, and the others keep theirs. -/
theorem generalisations_withChild (wf : heap.WellFormed) {parent : ConceptRef}
    (present : parent < heap.concepts.size) {line : LineRef}
    (has : (heap.concept parent).specialisations = some line) (content : KnowledgeString)
    (uri : KnowledgeURI) (c : ConceptRef) :
    (heap.withChild parent line content uri).generalisations c =
      if c = heap.concepts.size then TypedKLine.add {} (heap.concept parent).uri parent
      else heap.generalisations c := by
  have inside : ∀ g ∈ (TypedKLine.add {} (heap.concept parent).uri parent).values,
      g < heap.concepts.size := fun g member => eq_of_mem_parent member ▸ present
  rw [withChild, generalisations_withLine, generalisations_constructed _ _ _ wf]
  -- a line of specialisations is no line of generalisations
  refine if_neg fun same => (wf.constructed inside content uri).apart c parent line same ?_
  rw [concept_constructed_of_ne _ _ _ present.ne, has]

end Heap

end ThinkingUnderstanding
