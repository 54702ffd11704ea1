import ThinkingUnderstanding.Hierarchy.WellFormed
import ThinkingUnderstanding.Math.Acyclic

/-!
# Adding generalisations without closing a cycle

The generalisation graph is kept in lines of knowledge. Where no two concepts share a line of
generalisations, the steps that the hierarchy operations are made of add the edges that one
expects, and none else. The reduction of links adds none, provided that the table it reads
holds no generalisation links.

## Main definitions

* `IsGeneralisationOf` — the graph
* `IsMarked` — the name of a generalisation link
* `Ascending` — the graph has no infinite ascent, and no line of it is shared

## Main results

* `Ascending.withChild`, `Ascending.linksAdd` — steps that keep the graph so
* `maintains_reduceLinks` — the reduction of links keeps it so
-/

namespace ThinkingUnderstanding

open Math Semantics

/-- The concept is a direct generalisation of the other one. -/
def IsGeneralisationOf (heap : Heap) (g c : ConceptRef) : Prop := g ∈ heap.generalisationsList c

/-- The name of a generalisation link. -/
def IsMarked (name : String) : Prop := (indexOf name generalisationLinkName).isSome

instance : DecidablePred IsMarked := fun _ => inferInstanceAs (Decidable (_ = true))

/-- The links of the table exist, and none is a generalisation link. -/
def Correlation.PlainTable (defaults : Defaults) (heap : Heap) : Prop :=
  ∀ entry ∈ defaults.reduceLinks, entry.2 < heap.links.size ∧
    ¬ IsMarked (heap.uri (heap.link entry.2).uri).name

open Correlation

/-- The invariant of the runs: no line of generalisations is shared, and there is no
infinite ascent. -/
structure Ascending (heap : Heap) : Prop where
  wellFormed : heap.WellFormed
  own : ∀ c d l, (heap.concept c).generalisations = some l →
    (heap.concept d).generalisations = some l → c = d
  acyclic : WellFounded (IsGeneralisationOf heap)

section Steps

variable {heap : Heap} {c d : ConceptRef}

/-- Where lines are not shared, a changed line of generalisations changes those of one
concept. -/
theorem generalisations_withLine_of_own
    (own : ∀ c d l, (heap.concept c).generalisations = some l →
      (heap.concept d).generalisations = some l → c = d)
    {line : LineRef} (has : (heap.concept c).generalisations = some line)
    (f : TypedKLine ConceptRef → TypedKLine ConceptRef) (d : ConceptRef) :
    (heap.withLine line f).generalisations d =
      if d = c then f (heap.generalisations c) else heap.generalisations d := by
  rw [Heap.generalisations_withLine]
  by_cases same : d = c
  · subst same
    rw [if_pos has, if_pos rfl]
  · rw [if_neg same, if_neg fun has' => same (own d c line has' has)]

theorem own_constructed (ascending : Ascending heap) (line : TypedKLine ConceptRef)
    (content : KnowledgeString) (uri : KnowledgeURI) (c d : ConceptRef) (l : LineRef)
    (has : ((heap.constructed line content uri).concept c).generalisations = some l)
    (has' : ((heap.constructed line content uri).concept d).generalisations = some l) : c = d := by
  have fresh : ∀ c, c ≠ heap.concepts.size →
      ((heap.constructed line content uri).concept c).generalisations = some l →
        l ≠ heap.conceptLines.size := by
    intro c other has
    rw [Heap.concept_constructed_of_ne _ _ _ other] at has
    exact (ascending.wellFormed.generalisations_line_lt has).ne
  by_cases new : c = heap.concepts.size
  · by_cases new' : d = heap.concepts.size
    · exact new.trans new'.symm
    · subst new
      rw [Heap.concept_constructed_self] at has
      exact absurd (Option.some.inj has).symm (fresh d new' has')
  · by_cases new' : d = heap.concepts.size
    · subst new'
      rw [Heap.concept_constructed_self] at has'
      exact absurd (Option.some.inj has').symm (fresh c new has)
    · rw [Heap.concept_constructed_of_ne _ _ _ new] at has
      rw [Heap.concept_constructed_of_ne _ _ _ new'] at has'
      exact ascending.own c d l has has'

theorem Ascending.constructed (ascending : Ascending heap) (content : KnowledgeString)
    (uri : KnowledgeURI) : Ascending (heap.constructed {} content uri) where
  wellFormed := 
    ascending.wellFormed.constructed (fun _ member => absurd member List.not_mem_nil) content uri
  own := own_constructed ascending {} content uri
  acyclic := by
    refine Subrelation.wf (fun {g c} edge => ?_) ascending.acyclic
    rw [IsGeneralisationOf, Heap.generalisationsList,
      Heap.generalisations_constructed _ _ _ ascending.wellFormed] at edge
    split at edge
    · cases edge
    · exact edge

/-- A new child has an edge to its parent, and nothing leads to it. -/
theorem Ascending.withChild (ascending : Ascending heap) {parent : ConceptRef}
    (present : parent < heap.concepts.size) {line : LineRef}
    (has : (heap.concept parent).specialisations = some line) (content : KnowledgeString)
    (uri : KnowledgeURI) : Ascending (heap.withChild parent line content uri) := by
  have wf := ascending.wellFormed
  have edges : ∀ c g, IsGeneralisationOf (heap.withChild parent line content uri) g c →
      IsGeneralisationOf heap g c ∨ c = heap.concepts.size ∧ g = parent := by
    intro c g edge
    rw [IsGeneralisationOf, Heap.generalisationsList,
      Heap.generalisations_withChild wf present has] at edge
    split at edge
    case isTrue same => exact Or.inr ⟨same, Heap.eq_of_mem_parent edge⟩
    case isFalse => exact Or.inl edge
  constructor
  case wellFormed => exact wf.withChild present line content uri
  case own => exact own_constructed ascending _ content uri
  case acyclic =>
    apply wellFounded_of_new_source (x := heap.concepts.size) ascending.acyclic
    · exact fun c g edge => (edges c g edge).imp_right And.left
    · intro c edge
      rcases edges c _ edge with old | ⟨-, same⟩
      · exact (wf.generalisations_lt c _ old).ne rfl
      · exact present.ne' same

theorem Ascending.withLink (ascending : Ascending heap) {source destination : ConceptRef}
    (inside : source < heap.concepts.size ∧ destination < heap.concepts.size)
    (uri : KnowledgeURI) (probability : Probability) :
    Ascending (heap.withLink source destination uri probability) where
  wellFormed := ascending.wellFormed.withLink inside uri probability
  own := ascending.own
  acyclic := ascending.acyclic

theorem Ascending.withLinkLines (ascending : Ascending heap) (lines : Arena LinkLines) :
    Ascending (heap.withLinkLines lines) where
  wellFormed := ascending.wellFormed.withLinkLines lines
  own := ascending.own
  acyclic := ascending.acyclic

theorem isGeneralisationOf_withLinks (c : ConceptRef) (links : List LinkRef) :
    IsGeneralisationOf (heap.withLinks c links) = IsGeneralisationOf heap := by
  funext g a
  rw [IsGeneralisationOf, Heap.generalisationsList, Heap.generalisations,
    Heap.generalisations_withLinks]
  rfl

theorem Ascending.withLinks (ascending : Ascending heap) (inside : c < heap.concepts.size)
    {links : List LinkRef} (present : ∀ l ∈ links, l < heap.links.size) :
    Ascending (heap.withLinks c links) where
  wellFormed := ascending.wellFormed.withLinks inside present
  own d d' l := by
    rw [Heap.generalisations_withLinks, Heap.generalisations_withLinks]
    exact ascending.own d d' l
  acyclic := by
    rw [isGeneralisationOf_withLinks]
    exact ascending.acyclic

/-- One edge that closes no cycle. -/
theorem Ascending.withGeneralisation (ascending : Ascending heap) {line : LineRef}
    (has : (heap.concept c).generalisations = some line) (present : d < heap.concepts.size)
    (open' : ¬ Relation.ReflTransGen (IsGeneralisationOf heap) c d) (uri : UriRef) :
    Ascending (heap.withLine line fun l => l.add uri d) where
  wellFormed := by
    apply ascending.wellFormed.withLine
    intro l old r member
    rcases TypedKLine.eq_or_mem_of_mem_values_add member with same | before
    · exact same ▸ present
    · exact old r before
  own := ascending.own
  acyclic := by
    apply wellFounded_of_edge (x := c) (y := d) ascending.acyclic _ open'
    intro a b edge
    rw [IsGeneralisationOf, Heap.generalisationsList,
      generalisations_withLine_of_own ascending.own has] at edge
    split at edge
    case isTrue same =>
      subst same
      rcases TypedKLine.eq_or_mem_of_mem_values_add edge with added | old
      · exact Or.inr ⟨rfl, added⟩
      · exact Or.inl old
    case isFalse => exact Or.inl edge

theorem run_linksAdd (c : ConceptRef) (l : LinkRef) :
    (Concept.linksAdd c l).run heap =
      (if IsMarked (heap.uri (heap.link l).uri).name then
        Concept.generalisationsAdd c (heap.link l).destination
      else pure ()).run (heap.withLinks c ((heap.concept c).conceptLinks ++ [l])) := rfl

/-- The addition of a link. -/
theorem Ascending.linksAdd (ascending : Ascending heap) (inside : c < heap.concepts.size)
    {l : LinkRef} (present : l < heap.links.size)
    (open' : IsMarked (heap.uri (heap.link l).uri).name →
      ¬ Relation.ReflTransGen (IsGeneralisationOf heap) c (heap.link l).destination) :
    ∃ t, (Concept.linksAdd c l).run heap = .ok () t ∧ Ascending t := by
  let added := heap.withLinks c ((heap.concept c).conceptLinks ++ [l])
  have first : Ascending added := by
    apply ascending.withLinks inside
    rw [List.forall_mem_append]
    exact ⟨ascending.wellFormed.linked c, List.forall_mem_singleton.mpr present⟩
  -- a link with the mark files its destination as a generalisation, any other link does not
  by_cases marked : IsMarked (heap.uri (heap.link l).uri).name
  · obtain ⟨line, _, has, -, -, -⟩ := ascending.wellFormed.lines c inside
    have has' : (added.concept c).generalisations = some line :=
      (Heap.generalisations_withLinks c _ c).trans has
    have inside' : (heap.link l).destination < added.concepts.size := by
      rw [Heap.size_concepts_withLinks inside]
      exact (ascending.wellFormed.ends l present).2
    have open'' : ¬ Relation.ReflTransGen (IsGeneralisationOf added) c (heap.link l).destination := by
      rw [isGeneralisationOf_withLinks]
      exact open' marked
    refine ⟨_, ?_, first.withGeneralisation has' inside' open''
      (added.concept (heap.link l).destination).uri⟩
    rw [run_linksAdd, if_pos marked]
    exact Heap.run_generalisationsAdd has' _
  · refine ⟨added, ?_, first⟩
    rw [run_linksAdd, if_neg marked]
    rfl

/-- A link that is not a generalisation link changes the links of its concept only. -/
theorem run_linksAdd_of_not_isMarked {l : LinkRef}
    (unmarked : ¬ IsMarked (heap.uri (heap.link l).uri).name) (c : ConceptRef) :
    (Concept.linksAdd c l).run heap =
      .ok () (heap.withLinks c ((heap.concept c).conceptLinks ++ [l])) := by
  rw [run_linksAdd, if_neg unmarked]
  rfl

variable {defaults : Defaults}

theorem Correlation.PlainTable.withLink (table : PlainTable defaults heap) (wf : heap.WellFormed)
    (source destination : ConceptRef) (uri : KnowledgeURI) (probability : Probability) :
    PlainTable defaults (heap.withLink source destination uri probability) := by
  intro entry member
  obtain ⟨present, unmarked⟩ := table entry member
  have same : (heap.withLink source destination uri probability).link entry.2 =
      heap.link entry.2 := heap.links.get_alloc_of_lt present _
  have sameUri : (heap.withLink source destination uri probability).uri (heap.link entry.2).uri =
      heap.uri (heap.link entry.2).uri :=
    heap.uris.get_alloc_of_lt (wf.linkUris _ present) _
  rw [same, sameUri]
  refine ⟨?_, unmarked⟩
  rw [Heap.withLink, Arena.size_alloc]
  exact present.trans (Nat.lt_succ_self _)

theorem Correlation.PlainTable.withSubLink (table : PlainTable defaults heap)
    (wf : heap.WellFormed) (parent : LinkRef) (source destination : ConceptRef)
    (uri : KnowledgeURI) (probability : Probability) :
    PlainTable defaults (heap.withSubLink parent source destination uri probability) :=
  table.withLink wf source destination uri probability

/-- A new link that is not a generalisation link changes the links of its ends only. -/
theorem run_createSubConceptLink {name : String} (unmarked : ¬ IsMarked name) (parent : LinkRef)
    (source destination : ConceptRef) (probability : Probability) :
    (ConceptLink.createSubConceptLink parent source destination name probability).run heap =
      .ok heap.links.size (heap.withSubLink parent source destination { name } probability) := by
  let made := heap.withLink source destination { name } probability
  let filed := made.withLinkLines (made.filedUnder parent heap.links.size)
  let linked := filed.withLinks source ((filed.concept source).conceptLinks ++ [heap.links.size])
  have unmarked' : ¬ IsMarked (filed.uri (filed.link heap.links.size).uri).name := by
    have link : filed.link heap.links.size =
        { source, destination, uri := heap.uris.size, probability } := Arena.get_alloc_size ..
    have named : filed.uri heap.uris.size = { name } := Arena.get_alloc_size ..
    rw [link, named]
    exact unmarked
  have unmarked'' : ¬ IsMarked (linked.uri (linked.link heap.links.size).uri).name := unmarked'
  change (Concept.linksAdd source heap.links.size >>= fun _ =>
    Concept.linksAdd destination heap.links.size >>= fun _ => pure heap.links.size).run filed = _
  rw [EStateM.run_bind, run_linksAdd_of_not_isMarked unmarked']
  change (Concept.linksAdd destination heap.links.size >>= fun _ => pure heap.links.size).run
    linked = _
  rw [EStateM.run_bind, run_linksAdd_of_not_isMarked unmarked'']
  rfl

theorem Ascending.withSubLink (ascending : Ascending heap) {source destination : ConceptRef}
    (inside : source < heap.concepts.size ∧ destination < heap.concepts.size) (parent : LinkRef)
    (uri : KnowledgeURI) (probability : Probability) :
    Ascending (heap.withSubLink parent source destination uri probability) :=
  Heap.withSubLink_induction (fun _ asc => asc.wellFormed)
    (fun _ _ _ uri probability asc inside => asc.withLink inside uri probability)
    (fun _ lines asc => asc.withLinkLines lines)
    (fun _ _ _ asc inside present => asc.withLinks inside present) ascending inside parent uri
    probability

end Steps

/-! ### The reduction of links -/

section Reduction

/-- A property of well-formed heaps that the creation of a link keeps. -/
structure KeptByLinks (I : Heap → Prop) : Prop where
  wellFormed : ∀ heap, I heap → heap.WellFormed
  create : ∀ heap parent source destination uri, I heap →
    source < heap.concepts.size ∧ destination < heap.concepts.size →
      I (heap.withSubLink parent source destination uri {})

theorem keptByLinks_ascending : KeptByLinks Ascending where
  wellFormed _ ascending := ascending.wellFormed
  create _ parent _ _ uri ascending inside := ascending.withSubLink inside parent uri {}

/-- What is known while links are reduced: the graph is as it should be, the table too, and
there are as many concepts as before. -/
structure Reducing (defaults : Defaults) (size : ℕ) (I : Heap → Prop) (heap : Heap) : Prop where
  holds : I heap
  table : PlainTable defaults heap
  size_eq : heap.concepts.size = size

variable {defaults : Defaults} {size : ℕ} {I : Heap → Prop}

theorem maintains_isReducibleTo (stack : ℕ) (c cReducible : ConceptRef) :
    Maintains (Reducing defaults size I) (isReducibleTo stack c cReducible) fun _ => True := by
  apply maintains_get_bind
  intro heap _
  cases heap.hasGeneralisationRec stack c cReducible with
  | none => exact maintains_throw _
  | some answer => exact maintains_pure trivial

theorem maintains_findReduction (stack : ℕ) (c : ConceptRef)
    (entries : List (ConceptRef × LinkRef)) :
    Maintains (Reducing defaults size I) (findReduction stack c entries)
      fun found => ∀ entry ∈ found, entry ∈ entries := by
  induction entries with
  | nil => exact maintains_pure fun _ member => nomatch member
  | cons entry rest ih =>
    rw [findReduction]
    apply (maintains_isReducibleTo stack c entry.1).bind
    intro reducible _
    cases reducible with
    | true =>
      apply maintains_pure
      intro found same
      exact Option.some.inj same ▸ List.mem_cons_self
    | false => exact ih.mono fun found inside e member => List.mem_cons_of_mem _ (inside e member)

/-- Both ends that are chosen are ends of links. -/
theorem maintains_processLinks {linkEnd : ConceptLink → ConceptRef} {links : List ConceptLink}
    (inside : ∀ l ∈ links, linkEnd l < size) :
    Maintains (Reducing defaults size I) (processLinks defaults linkEnd links)
      fun chosen => chosen.1 < size ∧ chosen.2 < size := by
  apply maintains_get_bind
  intro heap _
  dsimp only
  split
  case h_1 source _ destination _ hsources hdestinations =>
    apply maintains_pure
    constructor
    · exact inside source (List.mem_of_mem_filter (hsources ▸ List.mem_cons_self))
    · exact inside destination (List.mem_of_mem_filter (hdestinations ▸ List.mem_cons_self))
  case h_2 => exact maintains_throw _

theorem maintains_processSourcesDestinations {sources destinations : List ConceptLink}
    (inside : ∀ l ∈ sources, l.source < size) (inside' : ∀ l ∈ destinations, l.destination < size) :
    Maintains (Reducing defaults size I) (processSourcesDestinations defaults sources destinations)
      fun chosen => chosen.1 < size ∧ chosen.2 < size := by
  rw [processSourcesDestinations.eq_def]
  split
  · apply maintains_pure
    exact ⟨inside _ List.mem_cons_self, inside' _ List.mem_cons_self⟩
  · exact maintains_processLinks inside
  · exact maintains_processLinks inside'
  · exact maintains_throw _

theorem maintains_createLinkFromConcept (kept : KeptByLinks I) (c : ConceptRef)
    {entry : ConceptRef × LinkRef} (member : entry ∈ defaults.reduceLinks) :
    Maintains (Reducing defaults size I) (createLinkFromConcept defaults c entry.2)
      fun _ => True := by
  apply maintains_get_bind
  intro heap reducing
  -- the links of the concept were there before, so their ends are old concepts
  have ends : ∀ l ∈ heap.linksOf c, l.source < size ∧ l.destination < size := by
    intro l inside
    obtain ⟨l, has, rfl⟩ := List.mem_map.mp inside
    rw [← reducing.size_eq]
    have wf := kept.wellFormed heap reducing.holds
    exact wf.ends l (wf.linked c l has)
  apply (maintains_processSourcesDestinations
    (fun l inside => (ends l (List.mem_of_mem_filter inside)).1)
    (fun l inside => (ends l (List.mem_of_mem_filter inside)).2)).bind
  intro chosen inside
  have made : Maintains (Reducing defaults size I) (ConceptLink.createSubConceptLink entry.2 chosen.1
      chosen.2 (heap.uri (heap.link entry.2).uri).name {}) fun _ => True := by
    intro s reducing'
    obtain ⟨holds, table, rfl⟩ := reducing'
    rw [run_createSubConceptLink (reducing.table entry member).2]
    refine ⟨⟨kept.create s entry.2 chosen.1 chosen.2 _ holds inside,
      table.withSubLink (kept.wellFormed s holds) entry.2 chosen.1 chosen.2 _ {},
      Heap.size_concepts_withSubLink inside entry.2 _ {}⟩, fun _ _ _ => trivial⟩
  -- an ambiguous choice is an exception, and nothing is written
  have rest : ∀ few : Prop, [Decidable few] → Maintains (Reducing defaults size I)
      (if few then throw (.unexpectedException "$Ambiguous_links") else
        ConceptLink.createSubConceptLink entry.2 chosen.1 chosen.2
          (heap.uri (heap.link entry.2).uri).name {}) fun _ => True := by
    intro few _
    split
    · exact maintains_throw _
    · exact made
  dsimp only
  split
  · exact (maintains_throw (Q := fun _ => True) _).bind fun _ _ => rest _
  · exact rest _

theorem maintains_reduceLinks (kept : KeptByLinks I) (stack : ℕ) (instances : List ConceptRef) :
    Maintains (Reducing defaults size I) (reduceLinks defaults stack instances) fun _ => True := by
  have filtered : ∀ c ∈ instances, Maintains (Reducing defaults size I) (do
      let found ← defaults.reduceLinks.filterM fun entry => isReducibleTo stack c entry.1
      return decide (found.length > 0)) fun _ => True := by
    intro c _
    apply Maintains.bind (Q := fun _ => True)
    · exact Maintains.filterM _ fun entry _ => maintains_isReducibleTo stack c entry.1
    · exact fun found _ => maintains_pure trivial
  rw [reduceLinks]
  apply (Maintains.filterM instances filtered).bind
  intro reducibleConcepts _
  refine (Maintains.mapM (Q := fun _ => True) reducibleConcepts fun c _ => ?_).mono
    fun _ _ => trivial
  apply (maintains_findReduction stack c defaults.reduceLinks).bind
  rintro (_ | entry) inside
  · exact maintains_throw _
  · exact maintains_createLinkFromConcept kept c (inside entry rfl)

end Reduction


end ThinkingUnderstanding
