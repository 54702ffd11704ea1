import ThinkingUnderstanding.Hierarchy.Ascending

/-!
# Is the generalisation graph acyclic?

Generalisations are added as a side effect. A link whose name contains the marker for
generalisation links makes its destination a generalisation of the concept that the link is
added to. `ConceptLink.createSubConceptLink` adds a link to both its ends, so under such a
name the destination becomes a generalisation of itself. `createDomainConcepts` makes the
destinations of object links generalisations of a new parent.

As long as no operation closes a cycle in this way, the graph stays acyclic and the
recursion of `getGeneralisationsRec` ends.

## Main definitions

* `Correlation.Extended` — the graph with the object links that become generalisations
* `ClosesNoCycle` — an operation adds no edge that closes a cycle

## Main results

* `acyclic_of_reachable` — the graph stays acyclic along every run of such operations
-/

namespace ThinkingUnderstanding

open Math Semantics

namespace Correlation

/-- A parent can be created for the concept. -/
def IsInstance (heap : Heap) (c : ConceptRef) : Prop :=
  (heap.uriOf c).uid ≠ "" ∨ (indexOf (heap.uriOf c).name uidInstanceDelimiter).isSome

instance (heap : Heap) : DecidablePred (IsInstance heap) :=
  fun _ => inferInstanceAs (Decidable (_ ∨ _))

/-- The instances that get a parent: an exception ends the creation at the first concept
that is not an instance. -/
def processed (heap : Heap) (instances : List ConceptRef) : List ConceptRef :=
  instances.takeWhile fun c => IsInstance heap c

theorem processed_cons {heap : Heap} {c : ConceptRef} (here : IsInstance heap c)
    (rest : List ConceptRef) : processed heap (c :: rest) = c :: processed heap rest :=
  List.takeWhile_cons_of_pos (decide_eq_true here)

/-- The destinations of the object links of a concept. -/
def objectDestinations (defaults : Defaults) (heap : Heap) (c : ConceptRef) : List ConceptRef :=
  ((heap.linksOf c).filter fun l =>
    defaults.objectLinkName.toList.isPrefixOf (heap.uri l.uri).name.toList).map
      ConceptLink.destination

/-- The graph in which the destinations of the object links of the instances are
generalisations as well. -/
def Extended (defaults : Defaults) (heap : Heap) (instances : List ConceptRef)
    (g c : ConceptRef) : Prop :=
  IsGeneralisationOf heap g c ∨
    c ∈ processed heap instances ∧ (heap.uriOf c).uid ≠ "" ∧
      g ∈ objectDestinations defaults heap c

end Correlation

open Correlation

/-- The operation adds no edge that closes a cycle. -/
def ClosesNoCycle (defaults : Defaults) (heap : Heap) : HierarchyOperation → Prop
  | .linksAdd c l => IsMarked (heap.uri (heap.link l).uri).name →
      ¬ Relation.ReflTransGen (IsGeneralisationOf heap) c (heap.link l).destination
  | .createSubConceptLink _ _ _ name _ => ¬ IsMarked name
  | .createDomainConcepts instances => PlainTable defaults heap ∧
      ∀ c, ¬ Relation.TransGen (Extended defaults heap instances) c c
  | _ => True

/-! ### The parents of instances -/

section Parents

variable {defaults : Defaults} {heap t : Heap} {instances rest : List ConceptRef} {c : ConceptRef}

/-- What the creation of a parent leaves alone: links, the URIs that exist, and the URIs and
links of the concepts that exist. -/
structure KeepsOld (heap t : Heap) : Prop where
  size_le : heap.concepts.size ≤ t.concepts.size
  links : t.links = heap.links
  uris : ∀ u < heap.uris.size, t.uri u = heap.uri u
  concepts : ∀ a < heap.concepts.size, (t.concept a).uri = (heap.concept a).uri ∧
    (t.concept a).conceptLinks = (heap.concept a).conceptLinks

section KeepsOld

variable (keeps : KeepsOld heap t) (wf : heap.WellFormed)

include keeps wf

theorem KeepsOld.uriOf (present : c < heap.concepts.size) : t.uriOf c = heap.uriOf c := by
  rw [Heap.uriOf, (keeps.concepts c present).1, keeps.uris _ (wf.uris c present)]
  rfl

theorem KeepsOld.objectDestinations (present : c < heap.concepts.size) :
    objectDestinations defaults t c = objectDestinations defaults heap c := by
  have same : t.linksOf c = heap.linksOf c := by
    rw [Heap.linksOf, (keeps.concepts c present).2, Heap.linksOf]
    apply List.map_congr_left
    intro l _
    rw [Heap.link, keeps.links, Heap.link]
  rw [Correlation.objectDestinations, same, Correlation.objectDestinations]
  apply congrArg
  apply List.filter_congr
  intro link member
  obtain ⟨l, has, rfl⟩ := List.mem_map.mp member
  rw [keeps.uris _ (wf.linkUris l (wf.linked c l has))]

theorem KeepsOld.processed (inside : ∀ c ∈ rest, c < heap.concepts.size) :
    processed t rest = processed heap rest := by
  induction rest with
  | nil => rfl
  | cons c rest ih =>
    rw [List.forall_mem_cons] at inside
    have same : IsInstance t c ↔ IsInstance heap c := by
      rw [IsInstance, keeps.uriOf wf inside.1, IsInstance]
    rw [Correlation.processed, List.takeWhile_cons, ← Correlation.processed, ih inside.2,
      Correlation.processed, Correlation.processed, List.takeWhile_cons]
    simp only [same]

theorem KeepsOld.plainTable (table : PlainTable defaults heap) : PlainTable defaults t := by
  intro entry member
  obtain ⟨present, unmarked⟩ := table entry member
  rw [Heap.link, keeps.links]
  refine ⟨present, ?_⟩
  change ¬ IsMarked (t.uri (heap.link entry.2).uri).name
  rw [keeps.uris _ (wf.linkUris _ present)]
  exact unmarked

end KeepsOld

theorem objectDestinations_lt (wf : heap.WellFormed) {g : ConceptRef}
    (member : g ∈ objectDestinations defaults heap c) : g < heap.concepts.size := by
  obtain ⟨link, chosen, rfl⟩ := List.mem_map.mp member
  obtain ⟨l, has, rfl⟩ := List.mem_map.mp (List.mem_of_mem_filter chosen)
  exact (wf.ends l (wf.linked c l has)).2

/-- What is known before the parents of the instances are created: no cycle is closed when
the object links of all of them become generalisations. -/
structure Parenting (defaults : Defaults) (heap : Heap) (instances : List ConceptRef) : Prop where
  wellFormed : heap.WellFormed
  own : ∀ c d l, (heap.concept c).generalisations = some l →
    (heap.concept d).generalisations = some l → c = d
  table : PlainTable defaults heap
  inside : ∀ c ∈ instances, c < heap.concepts.size
  acyclic : WellFounded (Extended defaults heap instances)

theorem Parenting.ascending (parenting : Parenting defaults heap instances) : Ascending heap where
  wellFormed := parenting.wellFormed
  own := parenting.own
  acyclic := Subrelation.wf Or.inl parenting.acyclic

/-- The edges that the creation of a parent may add: from the instance to its parent, and
from there to what the object links of the instance lead to. -/
theorem Parenting.next (parenting : Parenting defaults heap (c :: rest))
    (here : IsInstance heap c) (keeps : KeepsOld heap t) (wf : t.WellFormed)
    (own : ∀ c d l, (t.concept c).generalisations = some l →
      (t.concept d).generalisations = some l → c = d)
    (edges : ∀ a g, IsGeneralisationOf t g a → IsGeneralisationOf heap g a ∨
      (a = c ∧ g = heap.concepts.size) ∨
        (a = heap.concepts.size ∧ (heap.uriOf c).uid ≠ "" ∧
          g ∈ objectDestinations defaults heap c)) : Parenting defaults t rest where
  wellFormed := wf
  own := own
  table := keeps.plainTable parenting.wellFormed parenting.table
  inside a member :=
    (parenting.inside a (List.mem_cons_of_mem c member)).trans_le keeps.size_le
  acyclic := by
    have wf' := parenting.wellFormed
    have inside := List.forall_mem_cons.mp parenting.inside
    have first := processed_cons here rest
    have old : ∀ a ∈ processed heap (c :: rest), a < heap.concepts.size :=
      fun a member => parenting.inside a (List.takeWhile_subset _ member)
    apply wellFounded_of_subdivided (x := c) (y := heap.concepts.size) parenting.acyclic
    · rintro a g (edge | ⟨member, instance', edge⟩)
      · rcases edges a g edge with before | up | ⟨same, instance', object⟩
        · exact Or.inl (Or.inl before)
        · exact Or.inr (Or.inl up)
        · exact Or.inr (Or.inr ⟨same, Or.inr ⟨first ▸ List.mem_cons_self, instance', object⟩⟩)
      · -- the object links of the other instances have not been touched
        rw [keeps.processed wf' inside.2] at member
        have present := inside.2 a (List.takeWhile_subset _ member)
        rw [keeps.uriOf wf' present] at instance'
        rw [keeps.objectDestinations wf' present] at edge
        exact Or.inl (Or.inr ⟨first ▸ List.mem_cons_of_mem c member, instance', edge⟩)
    · rintro a (edge | ⟨-, -, edge⟩)
      · exact (wf'.generalisations_lt a _ edge).ne rfl
      · exact (objectDestinations_lt wf' edge).ne rfl
    · rintro g (edge | ⟨member, -, -⟩)
      · rw [IsGeneralisationOf, Heap.generalisationsList, Heap.generalisations,
          Heap.concept_of_size_le le_rfl] at edge
        cases edge
      · exact (old _ member).ne rfl
    · exact inside.1.ne

/-- The heap in which a concept with the given line of generalisations has got a new parent. -/
def Heap.withParent (heap : Heap) (line : LineRef) (name : String) : Heap :=
  (heap.constructed {} { value := name, name := name } { name := name ++ conceptSuffix }).withLine
    line fun l => l.add heap.uris.size heap.concepts.size

/-- What is known of a heap with a new parent: it may get further generalisations. -/
structure HasParent (heap t : Heap) (c : ConceptRef) : Prop where
  wellFormed : t.WellFormed
  own : ∀ c d l, (t.concept c).generalisations = some l →
    (t.concept d).generalisations = some l → c = d
  keeps : KeepsOld heap t
  size : t.concepts.size = heap.concepts.size + 1
  line : (t.concept heap.concepts.size).generalisations = some heap.conceptLines.size
  edges : ∀ a g, IsGeneralisationOf t g a →
    IsGeneralisationOf heap g a ∨ a = c ∧ g = heap.concepts.size

theorem Ascending.withParent (ascending : Ascending heap) {line : LineRef}
    (has : (heap.concept c).generalisations = some line) (present : c < heap.concepts.size)
    (name : String) : HasParent heap (heap.withParent line name) c := by
  have wf := ascending.wellFormed
  -- first the parent is made, then it is filed with the concept
  let made := heap.constructed {} { value := name, name := name } { name := name ++ conceptSuffix }
  have asc : Ascending made := ascending.constructed _ _
  have has' : (made.concept c).generalisations = some line := by
    rw [Heap.concept_constructed_of_ne _ _ _ present.ne, has]
  have size : made.concepts.size = heap.concepts.size + 1 := Heap.size_concepts_constructed ..
  constructor
  case wellFormed =>
    apply asc.wellFormed.withLine
    intro l old r member
    rcases TypedKLine.eq_or_mem_of_mem_values_add member with rfl | before
    · rw [size]
      exact Nat.lt_succ_self _
    · exact old r before
  case own => exact asc.own
  case keeps =>
    constructor
    case size_le => exact size ▸ Nat.le_succ _
    case links => rfl
    case uris => exact fun u inside => heap.uris.get_alloc_of_lt inside _
    case concepts =>
      intro a inside
      have same : made.concept a = heap.concept a :=
        Heap.concept_constructed_of_ne _ _ _ inside.ne
      exact ⟨congrArg Concept.uri same, congrArg Concept.conceptLinks same⟩
  case size => exact size
  case line =>
    have same : made.concept heap.concepts.size = _ := Heap.concept_constructed_self ..
    exact congrArg Concept.generalisations same
  -- one edge is new, that of the concept to its parent
  case edges =>
    intro a g edge
    rw [IsGeneralisationOf, Heap.generalisationsList, Heap.withParent,
      generalisations_withLine_of_own asc.own has'] at edge
    have old : g ∈ (made.generalisations a).values → IsGeneralisationOf heap g a := by
      intro member
      rw [Heap.generalisations_constructed _ _ _ wf] at member
      split at member
      · cases member
      · exact member
    split at edge
    case isTrue same =>
      subst same
      rcases TypedKLine.eq_or_mem_of_mem_values_add edge with added | before
      · exact Or.inr ⟨rfl, added⟩
      · exact Or.inl (old before)
    case isFalse => exact Or.inl (old edge)

/-- A line of knowledge with the given concepts. -/
def filed (uris : ConceptRef → UriRef) (concepts : List ConceptRef) : TypedKLine ConceptRef :=
  { frames := .ofList (concepts.map fun g => (uris g, g)) }

theorem mem_of_mem_filed {uris : ConceptRef → UriRef} {concepts : List ConceptRef}
    {g : ConceptRef} (member : g ∈ (filed uris concepts).values) : g ∈ concepts := by
  obtain ⟨u, entry⟩ := TypedKLine.mem_values_iff.mp member
  obtain ⟨g', inside, same⟩ := List.mem_map.mp (InsertionMap.mem_of_mem_entries_ofList entry)
  cases same
  exact inside

/-- The parent takes over the links of its instance and the destinations of the object links
as its generalisations. -/
theorem HasParent.withObjects (parent : HasParent heap t c) (wf : heap.WellFormed)
    (instance' : (heap.uriOf c).uid ≠ "") (parenting : Parenting defaults heap (c :: rest))
    (uris : ConceptRef → UriRef) :
    Parenting defaults ((t.withLinks heap.concepts.size (heap.concept c).conceptLinks).withLine
      heap.conceptLines.size fun _ => filed uris (objectDestinations defaults heap c)) rest := by
  let linked := t.withLinks heap.concepts.size (heap.concept c).conceptLinks
  have present : heap.concepts.size < t.concepts.size := parent.size ▸ Nat.lt_succ_self _
  have size : linked.concepts.size = t.concepts.size := Heap.size_concepts_withLinks present _
  have wf' : linked.WellFormed := by
    apply parent.wellFormed.withLinks present
    rw [parent.keeps.links]
    exact wf.linked c
  have own : ∀ c d l, (linked.concept c).generalisations = some l →
      (linked.concept d).generalisations = some l → c = d := by
    intro c d l
    rw [Heap.generalisations_withLinks, Heap.generalisations_withLinks]
    exact parent.own c d l
  have line : (linked.concept heap.concepts.size).generalisations = some heap.conceptLines.size :=
    (Heap.generalisations_withLinks _ _ _).trans parent.line
  -- the only edges that are new lead from the parent to destinations of object links
  apply parenting.next (Or.inl instance')
  · constructor
    case size_le => exact parent.keeps.size_le.trans size.ge
    case links => exact parent.keeps.links
    case uris => exact parent.keeps.uris
    case concepts =>
      intro a inside
      have same : linked.concept a = t.concept a :=
        (Heap.concept_withLinks _ _ _).trans (if_neg inside.ne)
      obtain ⟨uri, links⟩ := parent.keeps.concepts a inside
      exact ⟨(congrArg Concept.uri same).trans uri, (congrArg Concept.conceptLinks same).trans links⟩
  · apply wf'.withLine
    intro _ _ g member
    rw [size]
    exact (objectDestinations_lt wf (mem_of_mem_filed member)).trans present
  · exact own
  · intro a g edge
    rw [IsGeneralisationOf, Heap.generalisationsList,
      generalisations_withLine_of_own own line] at edge
    split at edge
    case isTrue same => exact Or.inr (Or.inr ⟨same, instance', mem_of_mem_filed edge⟩)
    case isFalse =>
      have edge' : IsGeneralisationOf t g a := isGeneralisationOf_withLinks _ _ ▸ edge
      exact (parent.edges a g edge').imp_right Or.inl

section Run

variable {line : LineRef} (present : c < heap.concepts.size)
  (has : (heap.concept c).generalisations = some line)

include present has

theorem run_generalisationsAdd_constructed (name : String) :
    (Concept.generalisationsAdd c heap.concepts.size).run
      (heap.constructed {} { value := name, name := name } { name := name ++ conceptSuffix }) =
        .ok () (heap.withParent line name) := by
  have has' : ((heap.constructed {} { value := name, name := name }
      { name := name ++ conceptSuffix }).concept c).generalisations = some line := by
    rw [Heap.concept_constructed_of_ne _ _ _ present.ne, has]
  rw [Heap.run_generalisationsAdd has', Heap.concept_constructed_self]
  rfl

/-- The parent of an instance with a uid takes over its links, and gets the destinations of
the object links as its generalisations. -/
theorem run_createDomainConcept_of_uid (instance' : (heap.uriOf c).uid ≠ "") :
    (createDomainConcept defaults c).run heap = .ok heap.concepts.size
      (((heap.withParent line (heap.uriOf c).name).withLinks heap.concepts.size
        (heap.concept c).conceptLinks).withLine heap.conceptLines.size fun _ =>
          filed (fun g => (((heap.withParent line (heap.uriOf c).name).withLinks
            heap.concepts.size (heap.concept c).conceptLinks).concept g).uri)
              (objectDestinations defaults heap c)) := by
  have line' : ((heap.withParent line (heap.uriOf c).name).concept
      heap.concepts.size).generalisations = some heap.conceptLines.size :=
    congrArg Concept.generalisations
      (Heap.concept_constructed_self {} _ { name := (heap.uriOf c).name ++ conceptSuffix })
  rw [Correlation.createDomainConcept]
  change EStateM.run (if (heap.uriOf c).uid ≠ "" then _ else _) heap = _
  rw [if_pos instance']
  change (Concept.generalisationsAdd c heap.concepts.size >>= fun _ => _).run
    (heap.constructed {} _ _) = _
  rw [EStateM.run_bind, run_generalisationsAdd_constructed present has]
  change (Concept.modifyGeneralisations heap.concepts.size (fun _ => filed _ _) >>= fun _ =>
    pure heap.concepts.size).run ((heap.withParent line (heap.uriOf c).name).withLinks
      heap.concepts.size (heap.concept c).conceptLinks) = _
  rw [EStateM.run_bind, Heap.run_modifyGeneralisations
    ((Heap.generalisations_withLinks _ _ _).trans line')]
  rfl

/-- An instance that is told by its name gets a parent only. -/
theorem run_createDomainConcept_of_name (defaults : Defaults) (instance' : ¬ (heap.uriOf c).uid ≠ "")
    (named : (indexOf (heap.uriOf c).name uidInstanceDelimiter).isSome) :
    ∃ name, (createDomainConcept defaults c).run heap =
      .ok heap.concepts.size (heap.withParent line name) := by
  have run : ∀ name, (Concept.create name >>= fun parentConcept =>
      Concept.generalisationsAdd c parentConcept >>= fun _ => pure parentConcept).run heap =
        .ok heap.concepts.size (heap.withParent line name) := by
    intro name
    change (Concept.generalisationsAdd c heap.concepts.size >>= fun _ => _).run
      (heap.constructed {} _ _) = _
    rw [EStateM.run_bind, run_generalisationsAdd_constructed present has]
    rfl
  rw [Correlation.createDomainConcept]
  change ∃ name, EStateM.run (if (heap.uriOf c).uid ≠ "" then _ else _) heap = _
  rw [if_neg instance']
  obtain ⟨delimiter, found⟩ := Option.isSome_iff_exists.mp named
  rw [found]
  cases indexOf (heap.uriOf c).name conceptSuffix with
  | none => exact ⟨_, run _⟩
  | some suffix => exact ⟨_, run _⟩

end Run

/-- The creation of the parent of an instance. -/
theorem Parenting.run_parent (parenting : Parenting defaults heap (c :: rest))
    (here : IsInstance heap c) :
    ∃ p t, (createDomainConcept defaults c).run heap = .ok p t ∧ Parenting defaults t rest := by
  have present := (List.forall_mem_cons.mp parenting.inside).1
  obtain ⟨line, _, has, -, -, -⟩ := parenting.wellFormed.lines c present
  have parent := parenting.ascending.withParent has present
  by_cases instance' : (heap.uriOf c).uid ≠ ""
  · exact ⟨_, _, run_createDomainConcept_of_uid present has instance',
      (parent (heap.uriOf c).name).withObjects parenting.wellFormed instance' parenting _⟩
  · obtain ⟨name, run⟩ := run_createDomainConcept_of_name present has defaults instance'
      (here.resolve_left instance')
    refine ⟨_, _, run, parenting.next here (parent name).keeps (parent name).wellFormed
      (parent name).own fun a g edge => ?_⟩
    exact ((parent name).edges a g edge).imp_right Or.inl

/-- An exception is raised for what is not an instance, before anything has changed. -/
theorem run_createDomainConcept_of_not_isInstance (other : ¬ IsInstance heap c) :
    ∃ e, (createDomainConcept defaults c).run heap = .error e heap := by
  obtain ⟨uid, name⟩ := not_or.mp other
  rw [Correlation.createDomainConcept]
  change ∃ e, EStateM.run (if (heap.uriOf c).uid ≠ "" then _ else _) heap = _
  rw [if_neg uid, Option.not_isSome_iff_eq_none.mp name]
  exact ⟨_, rfl⟩

/-- The creation of all parents. -/
theorem Parenting.parents (parenting : Parenting defaults heap instances) :
    Ascending (finalState ((instances.mapM (createDomainConcept defaults)).run heap)) ∧
      ∀ ps t, (instances.mapM (createDomainConcept defaults)).run heap = .ok ps t →
        Reducing defaults t.concepts.size Ascending t := by
  induction instances generalizing heap with
  | nil =>
    refine ⟨parenting.ascending, fun ps t run => ?_⟩
    cases run
    exact ⟨parenting.ascending, parenting.table, rfl⟩
  | cons c rest ih =>
    rw [List.mapM_cons]
    by_cases here : IsInstance heap c
    · obtain ⟨p, m, first, next⟩ := parenting.run_parent here
      obtain ⟨ascending, reducing⟩ := ih next
      constructor
      · -- no cycle is closed, whether the later instances fail or not
        rw [EStateM.run_bind, first]
        apply holds_bind
        · intro e t run
          rwa [run] at ascending
        · intro ps t run
          rwa [run] at ascending
      · intro ps t run
        obtain ⟨p', m', first', run⟩ := run_bind_eq_ok_iff.mp run
        rw [first] at first'
        cases first'
        obtain ⟨ps', t', run, ended⟩ := run_bind_eq_ok_iff.mp run
        cases ended
        exact reducing ps' _ run
    · obtain ⟨e, failed⟩ := run_createDomainConcept_of_not_isInstance here
      rw [EStateM.run_bind, failed]
      exact ⟨parenting.ascending, fun ps t run => nomatch run⟩

theorem Ascending.createDomainConcepts (ascending : Ascending heap)
    (inside : ∀ c ∈ instances, c < heap.concepts.size) (table : PlainTable defaults heap)
    (open' : ∀ c, ¬ Relation.TransGen (Extended defaults heap instances) c c) (stack : ℕ) :
    Ascending (finalState ((createDomainConcepts defaults stack instances).run heap)) := by
  have wf := ascending.wellFormed
  have finite : {g | ∃ c, Extended defaults heap instances g c}.Finite := by
    apply (Set.finite_lt_nat heap.concepts.size).subset
    rintro g ⟨c, edge | ⟨-, -, edge⟩⟩
    · exact wf.generalisations_lt c g edge
    · exact objectDestinations_lt wf edge
  have parenting : Parenting defaults heap instances :=
    ⟨wf, ascending.own, table, inside, wellFounded_of_finite open' finite⟩
  obtain ⟨parents, reducing⟩ := parenting.parents
  rw [Correlation.createDomainConcepts]
  apply holds_bind
  · intro e t run
    rwa [run] at parents
  · intro ps t run
    apply holds_bind
    · intro e m reduced
      have kept := (maintains_reduceLinks keptByLinks_ascending stack instances).keeps (reducing ps t run)
      rw [reduced] at kept
      exact kept.holds
    · intro links m reduced
      have kept := (maintains_reduceLinks keptByLinks_ascending stack instances).keeps (reducing ps t run)
      rw [reduced] at kept
      exact kept.holds

end Parents

/-! ### Runs -/

section Runs

variable {defaults : Defaults} {heap : Heap} {stack : ℕ}

/-- An operation that closes no cycle keeps the graph without infinite ascent. -/
theorem Ascending.perform (ascending : Ascending heap) {operation : HierarchyOperation}
    (refers : operation.Refers heap) (closes : ClosesNoCycle defaults heap operation) :
    Ascending (finalState ((operation.perform defaults stack).run heap)) := by
  -- three of the operations create a child, with different contents
  have child : ∀ parent content uri, parent < heap.concepts.size →
      Ascending (finalState ((discard (Concept.createChild parent content uri)).run heap)) := by
    intro parent content uri present
    obtain ⟨_, line, -, has, -, -⟩ := ascending.wellFormed.lines parent present
    have run := Heap.run_createChild present has content uri
    rw [finalState_discard, run]
    exact ascending.withChild present has _ uri
  cases operation with
  | concept name =>
    exact ascending.constructed { value := name, name := name } { name := name ++ conceptSuffix }
  | instanceNamed instanceName uid =>
    exact ascending.constructed { value := instanceName, name := instanceName }
      { name := instanceName, uid }
  | link source destination uri => exact ascending.withLink refers uri _
  | createSubConcept parent name => exact child parent name { name } refers
  | createInstanceConcept parent uid =>
    exact child parent (heap.uriOf parent).name { name := (heap.uriOf parent).name, uid } refers
  | createInstanceConceptOf parent content uid =>
    exact child parent content { name := (heap.uriOf parent).name, uid } refers
  | linksAdd c l =>
    obtain ⟨t, run, kept⟩ := ascending.linksAdd refers.1 refers.2 closes
    change Ascending (finalState ((Concept.linksAdd c l).run heap))
    rw [run]
    exact kept
  | createSubConceptLink parent source destination name probability =>
    rw [HierarchyOperation.perform, finalState_discard, run_createSubConceptLink closes]
    exact ascending.withSubLink refers parent { name } probability
  | createDomainConcepts instances =>
    rw [HierarchyOperation.perform, finalState_discard]
    exact ascending.createDomainConcepts refers closes.1 closes.2 stack

/-- Along every run that starts without objects, and each of whose operations closes no
cycle, no concept becomes its own direct or indirect generalisation, and the recursion of
`getGeneralisationsRec` ends for every concept. -/
theorem acyclic_of_reachable (defaults : Defaults) (stack : ℕ) (heap : Heap)
    (reached : Reachable (HierarchyOperation.perform defaults stack)
      (fun heap operation => operation.Refers heap ∧ ClosesNoCycle defaults heap operation)
      {} heap) :
    (∀ c, ¬ Relation.TransGen (IsGeneralisationOf heap) c c) ∧
      ∀ c, ∃ depth, (heap.getGeneralisationsRec depth c).isSome := by
  have first : Ascending {} :=
    ⟨Heap.wellFormed_empty, fun _ _ _ has => (nomatch has),
      ⟨fun c => ⟨c, fun _ edge => absurd edge List.not_mem_nil⟩⟩⟩
  have ascending : Ascending heap := reached.invariant first
    fun _ _ ascending allowed => ascending.perform allowed.1 allowed.2
  refine ⟨not_transGen_self ascending.acyclic, fun c => ?_⟩
  obtain ⟨depth, short⟩ := exists_not_hasWalk_iff_acc.mpr (ascending.acyclic.apply c)
  exact ⟨depth, Heap.isSome_getGeneralisationsRec_iff.mpr short⟩

/-! ### A generalisation link between a user and a person, and one to itself -/

/-- No links are reduced. -/
def noReduction : Defaults := { reduceLinks := [] }

/-- The heap after operations that run one after another. -/
def after (operations : List HierarchyOperation) : Heap :=
  runAll (HierarchyOperation.perform noReduction 0) operations {}

/-- A person, a user who is one, and a generalisation link that is added to the user. -/
def userIsPerson : List HierarchyOperation :=
  [.concept "person", .createSubConcept 0 "user", .link 1 0 { name := generalisationLinkName },
    .linksAdd 1 0]

theorem userIsPerson_acyclic :
    Reachable (HierarchyOperation.perform noReduction 0)
      (fun heap operation => operation.Refers heap ∧ ClosesNoCycle noReduction heap operation) {}
      (after userIsPerson) ∧
    ∀ c, ¬ Relation.TransGen (IsGeneralisationOf (after userIsPerson)) c c := by
  have reached : Reachable (HierarchyOperation.perform noReduction 0)
      (fun heap operation => operation.Refers heap ∧ ClosesNoCycle noReduction heap operation) {}
      (after userIsPerson) := by
    apply Reachable.start.runAll
    refine ⟨⟨trivial, trivial⟩, ⟨Nat.zero_lt_one, trivial⟩, ⟨⟨Nat.one_lt_two, Nat.two_pos⟩, trivial⟩,
      ⟨⟨Nat.one_lt_two, Nat.zero_lt_one⟩, fun _ closed => ?_⟩, trivial⟩
    have none : (after (userIsPerson.take 3)).generalisationsList 0 = [] := by decide +kernel
    rcases Relation.ReflTransGen.cases_tail closed with same | ⟨g, -, edge⟩
    · cases same
    · have edge' : g ∈ (after (userIsPerson.take 3)).generalisationsList 0 := edge
      rw [none] at edge'
      cases edge'
  exact ⟨reached, (acyclic_of_reachable noReduction 0 _ reached).1⟩

/-- A generalisation link from a user to a person, which is added to both. -/
def personGeneralised : List HierarchyOperation :=
  [.concept "person", .concept "user", .link 1 0 { name := generalisationLinkName },
    .createSubConceptLink 0 1 0 generalisationLinkName {}]

/-- The person becomes its own generalisation. -/
theorem destination_generalises_itself :
    Reachable (HierarchyOperation.perform noReduction 0)
      (fun heap operation => operation.Refers heap) {} (after personGeneralised) ∧
    Relation.TransGen (IsGeneralisationOf (after personGeneralised)) 0 0 ∧
    ∀ depth, (after personGeneralised).getGeneralisationsRec depth 0 = none := by
  have list : (after personGeneralised).generalisationsList 0 = [0] := by decide +kernel
  have self : IsGeneralisationOf (after personGeneralised) 0 0 := by
    rw [IsGeneralisationOf, list]
    exact List.mem_singleton_self 0
  refine ⟨?_, .single self, fun depth => ?_⟩
  · apply Reachable.start.runAll
    exact ⟨trivial, trivial, ⟨Nat.one_lt_two, Nat.two_pos⟩, ⟨Nat.one_lt_two, Nat.two_pos⟩, trivial⟩
  · rw [← Option.not_isSome_iff_eq_none, Heap.isSome_getGeneralisationsRec_iff, not_not]
    exact hasWalk_of_mem_self self depth

end Runs

end ThinkingUnderstanding
