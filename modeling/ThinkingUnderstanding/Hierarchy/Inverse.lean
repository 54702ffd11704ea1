import ThinkingUnderstanding.Hierarchy.Acyclicity

/-!
# Are generalisations and specialisations inverse to each other?

The factories of `Concept` file a new concept with its parent and the parent with the new
concept. The other operations change one side only: `generalisationsAdd`, and with it
`linksAdd`, files a generalisation that does not learn of it, and `createDomainConcepts`
creates parents that have no specialisations. After `Concept.copy` two concepts use the same
line, so that the next child of one of them is a specialisation of both.

## Main definitions

* `HierarchyChange` — the hierarchy operations, with `generalisationsAdd` and `copy`
* `ChangesBothSides` — when an operation leaves no side behind
* `AreInverse` — each concept is a specialisation of its generalisations, and conversely

## Main results

* `areInverse_of_reachable` — the two stay inverse along every run of such operations
-/

namespace ThinkingUnderstanding

open Math Semantics Correlation

/-- The operations that change the hierarchy. -/
inductive HierarchyChange
  | operation (op : HierarchyOperation)
  | generalisationsAdd (c concept : ConceptRef)
  | copy (source destination : ConceptRef)

namespace HierarchyChange

/-- Run an operation for what it does to the heap. -/
def perform (defaults : Defaults) (stack : ℕ) : HierarchyChange → GraphProgram Unit
  | operation op => op.perform defaults stack
  | generalisationsAdd c concept => Concept.generalisationsAdd c concept
  | copy source destination => discard (Concept.copyInto source destination)

/-- The concepts and the link that an operation is given exist. -/
def Refers (heap : Heap) : HierarchyChange → Prop
  | operation op => op.Refers heap
  | generalisationsAdd c concept => c < heap.concepts.size ∧ concept < heap.concepts.size
  | copy source destination => source < heap.concepts.size ∧ destination < heap.concepts.size

end HierarchyChange

/-- No other concept uses the line of specialisations of the given one. -/
def SpecialisesAlone (heap : Heap) (parent : ConceptRef) : Prop :=
  ∀ c < heap.concepts.size, (heap.concept c).specialisations =
    (heap.concept parent).specialisations → c = parent

/-- The operation leaves neither side behind. -/
def ChangesBothSides (heap : Heap) : HierarchyChange → Prop
  | .operation (.createSubConcept parent _) => SpecialisesAlone heap parent
  | .operation (.createInstanceConcept parent _) => SpecialisesAlone heap parent
  | .operation (.createInstanceConceptOf parent _ _) => SpecialisesAlone heap parent
  | .operation (.linksAdd c l) => IsMarked (heap.uri (heap.link l).uri).name →
      (heap.link l).destination ∈ heap.generalisationsList c
  | .operation (.createSubConceptLink _ _ _ name _) => ¬ IsMarked name
  | .operation (.createDomainConcepts instances) => processed heap instances = []
  | .operation _ => True
  | .generalisationsAdd c concept => concept ∈ heap.generalisationsList c
  | .copy source destination =>
      (∀ g, g ∈ heap.generalisationsList source ↔ g ∈ heap.generalisationsList destination) ∧
        ∀ s, s ∈ (heap.specialisations source).values ↔
          s ∈ (heap.specialisations destination).values

/-- A concept is among the generalisations of another one exactly when that is among its
specialisations. -/
def AreInverse (heap : Heap) : Prop :=
  ∀ c p, p ∈ heap.generalisationsList c ↔ c ∈ (heap.specialisations p).values

/-- The line files every concept under its own URI. -/
def FilesByURI (heap : Heap) (line : TypedKLine ConceptRef) : Prop :=
  ∀ entry ∈ line.frames.entries, entry.1 = (heap.concept entry.2).uri

/-- The invariant of the runs. -/
structure Mirrored (heap : Heap) : Prop where
  wellFormed : heap.WellFormed
  generalisations : ∀ c, FilesByURI heap (heap.generalisations c)
  specialisations : ∀ c, FilesByURI heap (heap.specialisations c)
  inverse : AreInverse heap

section Steps

variable {heap : Heap} {c d : ConceptRef}

/-- A line that is filed by URI files nothing under a new URI. -/
theorem FilesByURI.notMem_keys (wf : heap.WellFormed) {line : TypedKLine ConceptRef}
    (files : FilesByURI heap line) (inside : ∀ r ∈ line.values, r < heap.concepts.size) :
    heap.uris.size ∉ line.keys := by
  intro member
  obtain ⟨entry, present, same⟩ := List.mem_map.mp member
  have old := wf.uris entry.2 (inside _ (TypedKLine.mem_values_iff.mpr ⟨_, present⟩))
  rw [← files entry present, same] at old
  exact lt_irrefl _ old

/-- Entries stay filed by URI when the concepts in them keep theirs. -/
theorem FilesByURI.congr {t : Heap} {line : TypedKLine ConceptRef} (files : FilesByURI heap line)
    (same : ∀ r ∈ line.values, (t.concept r).uri = (heap.concept r).uri) : FilesByURI t line := by
  intro entry present
  rw [same _ (TypedKLine.mem_values_iff.mpr ⟨_, present⟩)]
  exact files entry present

theorem FilesByURI.add {line : TypedKLine ConceptRef} (files : FilesByURI heap line)
    (c : ConceptRef) : FilesByURI heap (line.add (heap.concept c).uri c) := by
  rintro ⟨u, r⟩ present
  rcases InsertionMap.mem_entries_insert.mp present with ⟨rfl, rfl⟩ | ⟨-, old⟩
  · rfl
  · exact files _ old

theorem Mirrored.constructed (mirrored : Mirrored heap) (content : KnowledgeString)
    (uri : KnowledgeURI) : Mirrored (heap.constructed {} content uri) := by
  have wf := mirrored.wellFormed
  have empty : FilesByURI (heap.constructed {} content uri) {} := fun _ member => nomatch member
  have kept : ∀ r < heap.concepts.size,
      ((heap.constructed {} content uri).concept r).uri = (heap.concept r).uri := by
    intro r inside
    rw [Heap.concept_constructed_of_ne _ _ _ inside.ne]
  constructor
  case wellFormed =>
    exact wf.constructed (fun _ member => absurd member List.not_mem_nil) content uri
  case generalisations =>
    intro c
    rw [Heap.generalisations_constructed _ _ _ wf]
    split
    · exact empty
    · exact (mirrored.generalisations c).congr fun r member =>
        kept r (wf.generalisations_lt c r member)
  case specialisations =>
    intro c
    rw [Heap.specialisations_constructed _ _ _ wf]
    split
    · exact empty
    · exact (mirrored.specialisations c).congr fun r member =>
        kept r (wf.specialisations_lt c r member)
  case inverse =>
    intro c p
    rw [Heap.generalisationsList, Heap.generalisations_constructed _ _ _ wf,
      Heap.specialisations_constructed _ _ _ wf]
    -- the new concept has neither parents nor children
    by_cases newc : c = heap.concepts.size
    · rw [if_pos newc]
      refine iff_of_false List.not_mem_nil ?_
      split
      · exact List.not_mem_nil
      · exact fun member => (wf.specialisations_lt p c member).ne newc
    · rw [if_neg newc]
      by_cases newp : p = heap.concepts.size
      · rw [if_pos newp]
        exact iff_of_false (fun member => (wf.generalisations_lt c p member).ne newp)
          List.not_mem_nil
      · rw [if_neg newp]
        exact mirrored.inverse c p

/-- The lines after the creation of a child whose parent shares its specialisations with no
other concept. -/
theorem specialisations_withChild (wf : heap.WellFormed) {parent : ConceptRef}
    (present : parent < heap.concepts.size) {line : LineRef}
    (has : (heap.concept parent).specialisations = some line)
    (alone : SpecialisesAlone heap parent) (content : KnowledgeString) (uri : KnowledgeURI)
    (p : ConceptRef) :
    (heap.withChild parent line content uri).specialisations p =
      if p = parent then (heap.specialisations parent).add heap.uris.size heap.concepts.size
      else if p = heap.concepts.size then {} else heap.specialisations p := by
  -- the line that the child is filed in belongs to the parent alone
  have shares : ((heap.constructed (TypedKLine.add {} (heap.concept parent).uri parent) content
      uri).concept p).specialisations = some line ↔ p = parent := by
    by_cases new : p = heap.concepts.size
    · rw [new, Heap.concept_constructed_self, Option.some_inj]
      exact iff_of_false (Nat.lt_succ_of_lt (wf.specialisations_line_lt has)).ne' present.ne'
    · rw [Heap.concept_constructed_of_ne _ _ _ new, ← has]
      constructor
      · intro same
        rcases lt_or_ge p heap.concepts.size with inside | beyond
        · exact alone p inside same
        · rw [Heap.concept_of_size_le beyond, has] at same
          cases same
      · rintro rfl
        rfl
  rw [Heap.withChild, Heap.specialisations_withLine, Heap.specialisations_constructed _ _ _ wf]
  by_cases same : p = parent
  · rw [if_pos (shares.mpr same), if_pos same, if_neg (same ▸ present.ne), same]
  · rw [if_neg (fun has' => same (shares.mp has')), if_neg same]

/-- The child and its parent are filed with each other. -/
theorem Mirrored.withChild (mirrored : Mirrored heap) {parent : ConceptRef}
    (present : parent < heap.concepts.size) {line : LineRef}
    (has : (heap.concept parent).specialisations = some line)
    (alone : SpecialisesAlone heap parent) (content : KnowledgeString) (uri : KnowledgeURI) :
    Mirrored (heap.withChild parent line content uri) := by
  have wf := mirrored.wellFormed
  -- no URI of an old concept changes, so what is filed stays filed under its URI
  have kept : ∀ r < heap.concepts.size,
      ((heap.withChild parent line content uri).concept r).uri = (heap.concept r).uri :=
    fun r inside => congrArg Concept.uri (Heap.concept_constructed_of_ne _ content uri inside.ne)
  have made : ((heap.withChild parent line content uri).concept heap.concepts.size).uri =
      heap.uris.size := congrArg Concept.uri (Heap.concept_constructed_self _ content uri)
  constructor
  case wellFormed => exact wf.withChild present line content uri
  case generalisations =>
    intro c
    rw [Heap.generalisations_withChild wf present has]
    split
    · have first : FilesByURI heap {} := fun _ member => nomatch member
      refine (first.add parent).congr fun r member => kept r ?_
      exact Heap.eq_of_mem_parent member ▸ present
    · exact (mirrored.generalisations c).congr fun r member =>
        kept r (wf.generalisations_lt c r member)
  case specialisations =>
    have old : ∀ p, FilesByURI (heap.withChild parent line content uri) (heap.specialisations p) :=
      fun p => (mirrored.specialisations p).congr fun r member =>
        kept r (wf.specialisations_lt p r member)
    intro p
    rw [specialisations_withChild wf present has alone]
    split
    · exact made ▸ (old parent).add heap.concepts.size
    · split
      · exact fun _ member => nomatch member
      · exact old p
  case inverse =>
    intro c p
    have fresh := (mirrored.specialisations parent).notMem_keys wf (wf.specialisations_lt parent)
    rw [Heap.generalisationsList, Heap.generalisations_withChild wf present has,
      specialisations_withChild wf present has alone]
    -- only the pair of the new concept and its parent is new
    by_cases newc : c = heap.concepts.size
    · rw [if_pos newc]
      have left : p ∈ (TypedKLine.add {} (heap.concept parent).uri parent).values ↔ p = parent :=
        (TypedKLine.mem_values_add_iff_of_notMem List.not_mem_nil).trans
          (or_iff_left List.not_mem_nil)
      rw [left]
      by_cases same : p = parent
      · rw [if_pos same, TypedKLine.mem_values_add_iff_of_notMem fresh]
        exact iff_of_true same (Or.inl newc)
      · rw [if_neg same]
        refine iff_of_false same ?_
        split
        · exact List.not_mem_nil
        · exact fun member => (wf.specialisations_lt p c member).ne newc
    · rw [if_neg newc]
      by_cases same : p = parent
      · rw [if_pos same, TypedKLine.mem_values_add_iff_of_notMem fresh, or_iff_right newc, same]
        exact mirrored.inverse c parent
      · rw [if_neg same]
        by_cases newp : p = heap.concepts.size
        · rw [if_pos newp]
          exact iff_of_false (fun member => (wf.generalisations_lt c p member).ne newp)
            List.not_mem_nil
        · rw [if_neg newp]
          exact mirrored.inverse c p

theorem Mirrored.withLink (mirrored : Mirrored heap) {source destination : ConceptRef}
    (inside : source < heap.concepts.size ∧ destination < heap.concepts.size)
    (uri : KnowledgeURI) (probability : Probability) :
    Mirrored (heap.withLink source destination uri probability) where
  wellFormed := mirrored.wellFormed.withLink inside uri probability
  generalisations := mirrored.generalisations
  specialisations := mirrored.specialisations
  inverse := mirrored.inverse

theorem Mirrored.withLinkLines (mirrored : Mirrored heap) (lines : Arena LinkLines) :
    Mirrored (heap.withLinkLines lines) where
  wellFormed := mirrored.wellFormed.withLinkLines lines
  generalisations := mirrored.generalisations
  specialisations := mirrored.specialisations
  inverse := mirrored.inverse

/-- Links do not matter. -/
theorem Mirrored.withLinks (mirrored : Mirrored heap) (inside : c < heap.concepts.size)
    {links : List LinkRef} (present : ∀ l ∈ links, l < heap.links.size) :
    Mirrored (heap.withLinks c links) := by
  have generalisations : (heap.withLinks c links).generalisations = heap.generalisations := by
    funext d
    rw [Heap.generalisations, Heap.generalisations_withLinks]
    rfl
  have specialisations : (heap.withLinks c links).specialisations = heap.specialisations := by
    funext d
    rw [Heap.specialisations, Heap.specialisations_withLinks]
    rfl
  constructor
  case wellFormed => exact mirrored.wellFormed.withLinks inside present
  case generalisations =>
    intro d
    rw [generalisations]
    exact (mirrored.generalisations d).congr fun r _ => Heap.uri_withLinks c links r
  case specialisations =>
    intro d
    rw [specialisations]
    exact (mirrored.specialisations d).congr fun r _ => Heap.uri_withLinks c links r
  case inverse =>
    intro d p
    rw [Heap.generalisationsList, generalisations, specialisations]
    exact mirrored.inverse d p

/-- To file a generalisation again changes no line but in the order of its entries. -/
theorem Mirrored.withGeneralisation (mirrored : Mirrored heap) {line : LineRef}
    (has : (heap.concept c).generalisations = some line) (member : d ∈ heap.generalisationsList c) :
    Mirrored (heap.withLine line fun l => l.add (heap.concept d).uri d) := by
  have wf := mirrored.wellFormed
  have inside : d < heap.concepts.size := wf.generalisations_lt c d member
  -- what is filed by its URI is filed again at the same place
  have filed : ((heap.concept d).uri, d) ∈ (heap.generalisations c).frames.entries := by
    obtain ⟨u, entry⟩ := TypedKLine.mem_values_iff.mp member
    exact mirrored.generalisations c _ entry ▸ entry
  have entries : ∀ a entry, entry ∈ ((heap.withLine line fun l =>
      l.add (heap.concept d).uri d).generalisations a).frames.entries ↔
        entry ∈ (heap.generalisations a).frames.entries := by
    intro a entry
    rw [Heap.generalisations_withLine]
    split
    case isTrue shares =>
      have same : heap.generalisations a = heap.generalisations c := by
        rw [Heap.generalisations, shares, Heap.generalisations, has]
      rw [same]
      exact TypedKLine.mem_entries_add_of_mem filed
    case isFalse => rfl
  have specialisations : ∀ a, (heap.withLine line fun l =>
      l.add (heap.concept d).uri d).specialisations a = heap.specialisations a := by
    intro a
    rw [Heap.specialisations_withLine]
    exact if_neg (wf.apart c a line has)
  constructor
  case wellFormed =>
    apply wf.withLine
    intro l old r member
    rcases TypedKLine.eq_or_mem_of_mem_values_add member with same | before
    · exact same ▸ inside
    · exact old r before
  case generalisations =>
    exact fun a entry present => mirrored.generalisations a entry ((entries a entry).mp present)
  case specialisations =>
    intro a
    rw [specialisations]
    exact mirrored.specialisations a
  case inverse =>
    intro a p
    rw [specialisations, ← mirrored.inverse, Heap.generalisationsList, TypedKLine.mem_values_iff,
      Heap.generalisationsList, TypedKLine.mem_values_iff]
    exact exists_congr fun u => entries a (u, p)

theorem Mirrored.linksAdd (mirrored : Mirrored heap) (inside : c < heap.concepts.size)
    {l : LinkRef} (present : l < heap.links.size)
    (known : IsMarked (heap.uri (heap.link l).uri).name →
      (heap.link l).destination ∈ heap.generalisationsList c) :
    ∃ t, (Concept.linksAdd c l).run heap = .ok () t ∧ Mirrored t := by
  let added := heap.withLinks c ((heap.concept c).conceptLinks ++ [l])
  have first : Mirrored added := by
    apply mirrored.withLinks inside
    rw [List.forall_mem_append]
    exact ⟨mirrored.wellFormed.linked c, List.forall_mem_singleton.mpr present⟩
  by_cases marked : IsMarked (heap.uri (heap.link l).uri).name
  · obtain ⟨line, _, has, -, -, -⟩ := mirrored.wellFormed.lines c inside
    have has' : (added.concept c).generalisations = some line :=
      (Heap.generalisations_withLinks c _ c).trans has
    have known' : IsGeneralisationOf added (heap.link l).destination c := by
      rw [isGeneralisationOf_withLinks]
      exact known marked
    refine ⟨_, ?_, first.withGeneralisation has' known'⟩
    rw [run_linksAdd, if_pos marked]
    exact Heap.run_generalisationsAdd has' _
  · refine ⟨added, ?_, first⟩
    rw [run_linksAdd, if_neg marked]
    rfl

/-- The heap after a copy. -/
def Heap.copied (heap : Heap) (source destination : ConceptRef) : Heap :=
  finalState ((Concept.copyInto source destination).run heap)

/-- The destination uses the lines and links of the source. -/
theorem concept_copied (source destination c : ConceptRef) :
    (heap.copied source destination).concept c = if c = destination then
      { heap.concept destination with
        generalisations := (heap.concept source).generalisations
        specialisations := (heap.concept source).specialisations
        phrases := (heap.concept source).phrases
        conceptLinks := (heap.concept source).conceptLinks } else heap.concept c := by
  have read := heap.concepts.get_modify destination c fun concept => { concept with
    generalisations := (heap.concept source).generalisations
    specialisations := (heap.concept source).specialisations
    phrases := (heap.concept source).phrases
    conceptLinks := (heap.concept source).conceptLinks }
  exact read

theorem generalisations_copied (source destination c : ConceptRef) :
    (heap.copied source destination).generalisations c =
      if c = destination then heap.generalisations source else heap.generalisations c := by
  rw [Heap.generalisations, concept_copied]
  split <;> rfl

theorem specialisations_copied (source destination c : ConceptRef) :
    (heap.copied source destination).specialisations c =
      if c = destination then heap.specialisations source else heap.specialisations c := by
  rw [Heap.specialisations, concept_copied]
  split <;> rfl

theorem uri_copied (source destination c : ConceptRef) :
    ((heap.copied source destination).concept c).uri = (heap.concept c).uri := by
  rw [concept_copied]
  split
  case isTrue same => rw [same]
  case isFalse => rfl

theorem WellFormed.copied (wf : heap.WellFormed) {source destination : ConceptRef}
    (inside : source < heap.concepts.size) (inside' : destination < heap.concepts.size) :
    (heap.copied source destination).WellFormed := by
  have size : (heap.copied source destination).concepts.size = heap.concepts.size :=
    max_eq_left inside'
  -- every field of a concept is that of a concept before
  have lines : ∀ c, ∃ d, (c < heap.concepts.size → d < heap.concepts.size) ∧
      ((heap.copied source destination).concept c).generalisations =
        (heap.concept d).generalisations ∧
      ((heap.copied source destination).concept c).specialisations =
        (heap.concept d).specialisations ∧
      ((heap.copied source destination).concept c).conceptLinks =
        (heap.concept d).conceptLinks := by
    intro c
    rw [concept_copied]
    split
    · exact ⟨source, fun _ => inside, rfl, rfl, rfl⟩
    · exact ⟨c, id, rfl, rfl, rfl⟩
  constructor
  case lines =>
    intro c present
    obtain ⟨d, within, gens, specs, -⟩ := lines c
    rw [gens, specs]
    exact wf.lines d (within (size ▸ present))
  case apart =>
    intro c c' l
    obtain ⟨d, -, gens, -, -⟩ := lines c
    obtain ⟨d', -, -, specs, -⟩ := lines c'
    rw [gens, specs]
    exact wf.apart d d' l
  case generalisations_lt =>
    intro c
    rw [size, generalisations_copied]
    split
    · exact wf.generalisations_lt source
    · exact wf.generalisations_lt c
  case specialisations_lt =>
    intro c
    rw [size, specialisations_copied]
    split
    · exact wf.specialisations_lt source
    · exact wf.specialisations_lt c
  case ends =>
    rw [size]
    exact wf.ends
  case linked =>
    intro c
    obtain ⟨d, -, -, -, links⟩ := lines c
    rw [links]
    exact wf.linked d
  case uris =>
    intro c
    rw [size, uri_copied]
    exact wf.uris c
  case linkUris => exact wf.linkUris

/-- A concept that has the same generalisations and specialisations may use the lines of the
other one. -/
theorem Mirrored.copied (mirrored : Mirrored heap) {source destination : ConceptRef}
    (inside : source < heap.concepts.size) (inside' : destination < heap.concepts.size)
    (generalisations : ∀ g, g ∈ heap.generalisationsList source ↔
      g ∈ heap.generalisationsList destination)
    (specialisations : ∀ s, s ∈ (heap.specialisations source).values ↔
      s ∈ (heap.specialisations destination).values) :
    Mirrored (heap.copied source destination) := by
  constructor
  case wellFormed => exact WellFormed.copied mirrored.wellFormed inside inside'
  case generalisations =>
    intro c
    rw [generalisations_copied]
    split
    · exact (mirrored.generalisations source).congr fun r _ => uri_copied source destination r
    · exact (mirrored.generalisations c).congr fun r _ => uri_copied source destination r
  case specialisations =>
    intro c
    rw [specialisations_copied]
    split
    · exact (mirrored.specialisations source).congr fun r _ => uri_copied source destination r
    · exact (mirrored.specialisations c).congr fun r _ => uri_copied source destination r
  case inverse =>
    intro c p
    -- source and destination have the same parents, and also the same children
    have left : p ∈ (heap.copied source destination).generalisationsList c ↔
        p ∈ heap.generalisationsList c := by
      rw [Heap.generalisationsList, generalisations_copied]
      split
      case isTrue same => exact same ▸ generalisations p
      case isFalse => rfl
    have right : c ∈ ((heap.copied source destination).specialisations p).values ↔
        c ∈ (heap.specialisations p).values := by
      rw [specialisations_copied]
      split
      case isTrue same => exact same ▸ specialisations c
      case isFalse => rfl
    rw [left, right]
    exact mirrored.inverse c p

/-- Where no instance is processed, nothing is changed. -/
theorem createDomainConcepts_of_processed_eq_nil (defaults : Defaults)
    {instances : List ConceptRef} (none : processed heap instances = []) (stack : ℕ) :
    finalState ((createDomainConcepts defaults stack instances).run heap) = heap := by
  cases instances with
  | nil => rfl
  | cons c rest =>
    have other : ¬ IsInstance heap c := by
      intro here
      rw [processed_cons here] at none
      cases none
    obtain ⟨e, failed⟩ := @run_createDomainConcept_of_not_isInstance defaults heap c other
    rw [createDomainConcepts, List.mapM_cons, EStateM.run_bind, EStateM.run_bind, failed]
    rfl

end Steps

/-! ### Runs -/

section Runs

variable {defaults : Defaults} {heap : Heap} {stack : ℕ}

/-- An operation that changes both sides keeps them inverse. -/
theorem Mirrored.perform (mirrored : Mirrored heap) {change : HierarchyChange}
    (refers : change.Refers heap) (both : ChangesBothSides heap change) :
    Mirrored (finalState ((change.perform defaults stack).run heap)) := by
  -- three of the operations create a child, with different contents
  have child : ∀ parent content uri, parent < heap.concepts.size → SpecialisesAlone heap parent →
      Mirrored (finalState ((discard (Concept.createChild parent content uri)).run heap)) := by
    intro parent content uri present alone
    obtain ⟨_, line, -, has, -, -⟩ := mirrored.wellFormed.lines parent present
    have run := Heap.run_createChild present has content uri
    rw [finalState_discard, run]
    exact mirrored.withChild present has alone _ uri
  cases change with
  | operation op =>
    cases op with
    | concept name =>
      exact mirrored.constructed { value := name, name := name } { name := name ++ conceptSuffix }
    | instanceNamed instanceName uid =>
      exact mirrored.constructed { value := instanceName, name := instanceName }
        { name := instanceName, uid }
    | link source destination uri => exact mirrored.withLink refers uri {}
    | createSubConcept parent name => exact child parent name { name } refers both
    | createInstanceConcept parent uid =>
      exact child parent (heap.uriOf parent).name { name := (heap.uriOf parent).name, uid }
        refers both
    | createInstanceConceptOf parent content uid =>
      exact child parent content { name := (heap.uriOf parent).name, uid } refers both
    | linksAdd c l =>
      obtain ⟨t, run, kept⟩ := mirrored.linksAdd refers.1 refers.2 both
      change Mirrored (finalState ((Concept.linksAdd c l).run heap))
      rw [run]
      exact kept
    | createSubConceptLink parent source destination name probability =>
      rw [HierarchyChange.perform, HierarchyOperation.perform, finalState_discard,
        run_createSubConceptLink both]
      exact Heap.withSubLink_induction (fun _ mirrored => mirrored.wellFormed)
        (fun _ _ _ uri probability mirrored inside => mirrored.withLink inside uri probability)
        (fun _ lines mirrored => mirrored.withLinkLines lines)
        (fun _ _ _ mirrored inside present => mirrored.withLinks inside present) mirrored refers
        parent { name } probability
    -- both sides change here only where no instance is processed
    | createDomainConcepts instances =>
      have same := createDomainConcepts_of_processed_eq_nil defaults both stack
      rw [HierarchyChange.perform, HierarchyOperation.perform, finalState_discard, same]
      exact mirrored
  | generalisationsAdd c concept =>
    obtain ⟨line, _, has, -, -, -⟩ := mirrored.wellFormed.lines c refers.1
    change Mirrored (finalState ((Concept.generalisationsAdd c concept).run heap))
    rw [Heap.run_generalisationsAdd has]
    exact mirrored.withGeneralisation has both
  | copy source destination =>
    exact mirrored.copied refers.1 refers.2 both.1 both.2

/-- Along every run that starts without objects, and each of whose operations changes both
sides, a concept is among the generalisations of another one exactly when that is among its
specialisations. -/
theorem areInverse_of_reachable (defaults : Defaults) (stack : ℕ) (heap : Heap)
    (reached : Reachable (HierarchyChange.perform defaults stack)
      (fun heap change => change.Refers heap ∧ ChangesBothSides heap change) {} heap) :
    AreInverse heap := by
  have first : Mirrored {} := ⟨Heap.wellFormed_empty, fun _ _ member => (nomatch member),
    fun _ _ member => (nomatch member), fun _ _ => iff_of_false List.not_mem_nil List.not_mem_nil⟩
  have mirrored : Mirrored heap := reached.invariant first
    fun _ _ mirrored allowed => mirrored.perform allowed.1 allowed.2
  exact mirrored.inverse

/-! ### A user who is a person, and a parent that does not know its instance -/

/-- A person and a user who is one, which is said twice, and two fresh concepts of which one
is copied. -/
def usersOfPersons : List HierarchyChange :=
  [.operation (.concept "person"), .operation (.createSubConcept 0 "user"),
    .generalisationsAdd 1 0, .operation (.concept "system"), .operation (.concept "device"),
    .copy 2 3]

theorem usersOfPersons_areInverse :
    AreInverse (runAll (HierarchyChange.perform noReduction 0) usersOfPersons {}) := by
  let said := runAll (HierarchyChange.perform noReduction 0) (usersOfPersons.take 2) {}
  let apart := runAll (HierarchyChange.perform noReduction 0) (usersOfPersons.take 5) {}
  have isPerson : said.generalisationsList 1 = [0] := by decide +kernel
  have alike : apart.generalisationsList 2 = apart.generalisationsList 3 ∧
      (apart.specialisations 2).values = (apart.specialisations 3).values := by decide +kernel
  apply areInverse_of_reachable noReduction 0
  apply Reachable.start.runAll
  refine ⟨⟨trivial, trivial⟩, ⟨Nat.zero_lt_one, ?_⟩, ⟨⟨Nat.one_lt_two, Nat.two_pos⟩, ?_⟩,
    ⟨trivial, trivial⟩, ⟨trivial, trivial⟩, ⟨⟨?_, ?_⟩, ?_, ?_⟩, trivial⟩
  · exact fun c only _ => Nat.lt_one_iff.mp only
  · exact (isPerson.symm ▸ List.mem_singleton_self 0 : 0 ∈ said.generalisationsList 1)
  · decide +kernel
  · decide +kernel
  · exact fun g => (iff_of_eq (congrArg (g ∈ ·) alike.1) :
      g ∈ apart.generalisationsList 2 ↔ g ∈ apart.generalisationsList 3)
  · exact fun g => (iff_of_eq (congrArg (g ∈ ·) alike.2) :
      g ∈ (apart.specialisations 2).values ↔ g ∈ (apart.specialisations 3).values)

/-- An instance that gets a parent for its domain. -/
def letterWithParent : List HierarchyChange :=
  [.operation (.instanceNamed "letter" "8"), .operation (.createDomainConcepts [0])]

/-- The parent is a generalisation of the instance, which is no specialisation of it. -/
theorem parent_without_specialisation :
    Reachable (HierarchyChange.perform noReduction 0) (fun heap change => change.Refers heap) {}
      (runAll (HierarchyChange.perform noReduction 0) letterWithParent {}) ∧
    ¬ AreInverse (runAll (HierarchyChange.perform noReduction 0) letterWithParent {}) := by
  have generalisations : (runAll (HierarchyChange.perform noReduction 0) letterWithParent
      {}).generalisationsList 0 = [1] := by decide +kernel
  have specialisations : ((runAll (HierarchyChange.perform noReduction 0) letterWithParent
      {}).specialisations 1).values = [] := by decide +kernel
  constructor
  · apply Reachable.start.runAll
    exact ⟨trivial, fun c member => List.mem_singleton.mp member ▸ Nat.zero_lt_one, trivial⟩
  · intro inverse
    have known := (inverse 0 1).mp (generalisations ▸ List.mem_singleton_self 1)
    rw [specialisations] at known
    cases known

end Runs

end ThinkingUnderstanding
