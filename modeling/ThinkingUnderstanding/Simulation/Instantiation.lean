import ThinkingUnderstanding.Math.RelatedLists
import ThinkingUnderstanding.Simulation.Instances

/-!
# The creation of instances

An instance of a concept is a new concept with the concept as its only generalisation. With it
come instances of links, each with a new instance of its other end. Whether the creation
returns, and which links get instances, is known from the heap it starts from.

## Main definitions

* `Simulation.InstanceOf`, `Simulation.LinkInstanceOf` — the instances
* `Simulation.LinkBetween` — an instance of a link, with its ends
* `Simulation.Made` — an instance of a concept with instances of links
* `Heap.notProcessedEach` — the links that get instances, for each concept

## Main results

* `run_createInstanceConcept`, `run_createInstanceConceptLink` — one instance
* `run_instantiateEach`, `run_instantiateEach_of_none` — how the creation of all of them ends
-/

namespace ThinkingUnderstanding

open Math Semantics

/-- The links that get instances, for each of the concepts that are left. -/
def Heap.notProcessedEach (heap : Heap) (textCase : TextCase) (simulationModel : ConceptNetwork)
    (depth : ℕ) (concepts : List ConceptRef) :
    List ConceptRef → List ConceptRef → Option (List (List LinkRef))
  | _, [] => some []
  | processed, c :: rest => do
      let links ← heap.notProcessedLinks textCase simulationModel depth concepts processed c
      let others ← heap.notProcessedEach textCase simulationModel depth concepts
        (processed ++ [c]) rest
      return links :: others

namespace Simulation

/-- A new concept with the parent as its only generalisation, the name of the parent, and no
phrases. -/
structure InstanceOf (heap t : Heap) (parent it : ConceptRef) : Prop where
  new : heap.concepts.size ≤ it
  present : it < t.concepts.size
  generalisations : t.generalisationsList it = [parent]
  named : (t.uriOf it).name = (heap.uriOf parent).name
  phrases : ∃ line < t.phraseLines.size, (t.concept it).phrases = some line ∧
    t.phraseLines.get line = {}

/-- A link with the name that is made of the name of its parent and a number drawn. -/
structure LinkInstanceOf (draws : Draws) (heap t : Heap) (parent it : LinkRef) : Prop where
  present : it < t.links.size
  uri : ∃ k, t.uri (t.link it).uri = { name := instanceLinkName (heap.linkName parent) (draws k) }

/-- An instance of a link with the link as its only generalisation. If the concept is the source of
the link, the instance leads from the instance of the concept to a newer instance of the
destination, and otherwise from a newer instance of the source to the instance of the concept. -/
structure LinkBetween (draws : Draws) (heap t : Heap) (concept currentInstance : ConceptRef)
    (parent it : LinkRef) : Prop extends LinkInstanceOf draws heap t parent it where
  new : heap.links.size ≤ it
  generalisations : (t.linesOfLink it).generalisations.values = [parent]
  ends : if (heap.link parent).source = concept then
      (t.link it).source = currentInstance ∧
        InstanceOf heap t (heap.link parent).destination (t.link it).destination ∧
          currentInstance < (t.link it).destination
    else
      (t.link it).destination = currentInstance ∧
        InstanceOf heap t (heap.link parent).source (t.link it).source ∧
          currentInstance < (t.link it).source

variable {draws : Draws} {m n : ℕ} {heap t u : Heap}
  {parent it c concept currentInstance other : ConceptRef} {l l' link : LinkRef}

theorem InstanceOf.grown (made : InstanceOf heap t parent it) (wf : t.WellFormed)
    (grown : t.Extended n u) : InstanceOf heap u parent it where
  new := made.new
  present := made.present.trans_le grown.size
  generalisations := (grown.generalisationsList_eq made.present).trans made.generalisations
  named := by
    rw [grown.uriOf_eq wf made.present]
    exact made.named
  phrases := by
    obtain ⟨line, inside, has, none⟩ := made.phrases
    refine ⟨line, inside.trans_le grown.phraseLines.size, ?_, ?_⟩
    · rw [grown.concept it made.present]
      exact has
    · rw [grown.phraseLines.get line inside]
      exact none

/-- An instance is also one with respect to an earlier heap. -/
theorem InstanceOf.of_grown (made : InstanceOf t u parent it) (wf : heap.WellFormed)
    (grown : heap.Extended n t) (inside : parent < heap.concepts.size) :
    InstanceOf heap u parent it where
  new := grown.size.trans made.new
  present := made.present
  generalisations := made.generalisations
  named := by
    rw [made.named, grown.uriOf_eq wf inside]
  phrases := made.phrases

theorem LinkInstanceOf.grown (made : LinkInstanceOf draws heap t l it) (wf : t.WellFormed)
    (grown : t.Extended n u) : LinkInstanceOf draws heap u l it where
  present := made.present.trans_le grown.links.size
  uri := by
    obtain ⟨k, uri⟩ := made.uri
    refine ⟨k, ?_⟩
    rw [grown.link_eq made.present]
    exact (grown.uris.get _ (wf.linkUris it made.present)).trans uri

theorem LinkInstanceOf.of_grown (made : LinkInstanceOf draws t u l it) (wf : heap.WellFormed)
    (grown : heap.Extended n t) (present : l < heap.links.size) :
    LinkInstanceOf draws heap u l it where
  present := made.present
  uri := by
    rw [← grown.linkName_eq wf present]
    exact made.uri

theorem LinkBetween.grown (made : LinkBetween draws heap t concept currentInstance l l')
    (wf : t.WellFormed) (grown : t.Extended n u) :
    LinkBetween draws heap u concept currentInstance l l' where
  toLinkInstanceOf := made.toLinkInstanceOf.grown wf grown
  new := made.new
  generalisations := by
    rw [TypedKLine.values, grown.lines l' made.present]
    exact made.generalisations
  ends := by
    have ends := made.ends
    rw [grown.link_eq made.present]
    split_ifs at ends ⊢
    · exact ⟨ends.1, ends.2.1.grown wf grown, ends.2.2⟩
    · exact ⟨ends.1, ends.2.1.grown wf grown, ends.2.2⟩

theorem LinkBetween.of_grown (made : LinkBetween draws t u concept currentInstance l l')
    (wf : heap.WellFormed) (grown : heap.Extended n t) (present : l < heap.links.size) :
    LinkBetween draws heap u concept currentInstance l l' where
  toLinkInstanceOf := made.toLinkInstanceOf.of_grown wf grown present
  new := grown.links.size.trans made.new
  generalisations := made.generalisations
  ends := by
    have ends := made.ends
    rw [grown.link_eq present] at ends
    obtain ⟨source, destination⟩ := wf.ends l present
    split_ifs at ends ⊢
    · exact ⟨ends.1, ends.2.1.of_grown wf grown destination, ends.2.2⟩
    · exact ⟨ends.1, ends.2.1.of_grown wf grown source, ends.2.2⟩

/-- One end of the instance of a link is newer than the instance of the concept. -/
theorem LinkBetween.exists_newer (made : LinkBetween draws heap t concept currentInstance l l') :
    ∃ e, ((t.link l').source = e ∨ (t.link l').destination = e) ∧ currentInstance < e := by
  have ends := made.ends
  split_ifs at ends
  · exact ⟨_, Or.inr rfl, ends.2.2⟩
  · exact ⟨_, Or.inl rfl, ends.2.2⟩

/-! ### One instance -/

theorem run_createInstanceConcept (draws : Draws) (n : ℕ) (wf : t.WellFormed)
    (inside : parent < t.concepts.size) :
    ∃ u, (createInstanceConcept draws parent).run t = .ok t.concepts.size u ∧ u.WellFormed ∧
      t.Extended n u ∧ InstanceOf t u parent t.concepts.size := by
  obtain ⟨_, line, -, has, -, -⟩ := wf.lines parent inside
  let name := (t.uriOf parent).name
  let uri : KnowledgeURI := { name, uid := toString (draws t.uris.size).val }
  let content : KnowledgeString := { value := name, name }
  refine ⟨t.withChild parent line content uri, ?_, wf.withChild inside line content uri,
    .withChild wf inside has content uri, ?_⟩
  · exact run_adaptExcept_of_ok SimulationFailure.graph (Heap.run_createChild inside has name uri)
  · have self : (t.withChild parent line content uri).concept t.concepts.size = _ :=
      Heap.concept_constructed_self (TypedKLine.add {} (t.concept parent).uri parent) content uri
    constructor
    case new => exact le_rfl
    case present =>
      exact (Nat.lt_succ_self _).trans_eq (Heap.size_concepts_constructed _ content uri).symm
    case generalisations =>
      rw [Heap.generalisationsList, Heap.generalisations_withChild wf inside has, if_pos rfl]
      rfl
    case named =>
      rw [Heap.uriOf, self]
      have uriObject : (t.withChild parent line content uri).uri t.uris.size = uri :=
        t.uris.get_alloc_size uri
      rw [uriObject]
    case phrases =>
      refine ⟨t.phraseLines.size, ?_, ?_, t.phraseLines.get_alloc_size _⟩
      · exact (Nat.lt_succ_self _).trans_eq (t.phraseLines.size_alloc _).symm
      · rw [self]

theorem run_createInstanceConceptLink (draws : Draws) (n : ℕ) (wf : t.WellFormed) (l : LinkRef)
    {source destination : ConceptRef}
    (inside : source < t.concepts.size ∧ destination < t.concepts.size) :
    ∃ u, (createInstanceConceptLink draws l source destination).run t = .ok t.links.size u ∧
      u.WellFormed ∧ t.Extended n u ∧ LinkInstanceOf draws t u l t.links.size ∧
        (u.linesOfLink t.links.size).generalisations.values = [l] ∧
          (u.link t.links.size).source = source ∧
            (u.link t.links.size).destination = destination := by
  let uri : KnowledgeURI := { name := instanceLinkName (t.linkName l) (draws t.uris.size) }
  let made := t.withLink source destination uri {}
  have link : made.link t.links.size = { source, destination, uri := t.uris.size } :=
    t.links.get_alloc_size _
  refine ⟨made.withLinkLines (made.filedUnder l t.links.size), rfl,
    (wf.withLink inside uri {}).withLinkLines _,
    (Heap.Extended.withLink source destination uri {}).withLinkLines l le_rfl, ⟨?_, t.uris.size, ?_⟩,
    ?_, ?_, ?_⟩
  · exact (Nat.lt_succ_self _).trans_eq (t.links.size_alloc _).symm
  · change made.uri (made.link t.links.size).uri = _
    rw [link]
    exact t.uris.get_alloc_size uri
  · rw [TypedKLine.values, Heap.Extended.generalisations_filedUnder, if_pos rfl]
    rfl
  · change (made.link t.links.size).source = _
    rw [link]
  · change (made.link t.links.size).destination = _
    rw [link]

/-- A link between the instance at hand and a new one, either way round. -/
theorem run_createEnd_bind (draws : Draws) (n : ℕ) (wf : t.WellFormed)
    (present : l < t.links.size) {other : ConceptRef} (inside : other < t.concepts.size)
    (source destination : ConceptRef → ConceptRef)
    (ends : ∀ e, t.concepts.size ≤ e → source e < e + 1 ∧ destination e < e + 1) :
    ∃ it u e, (createInstanceConcept draws other >>= fun e =>
        createInstanceConceptLink draws l (source e) (destination e)).run t = .ok it u ∧
      u.WellFormed ∧ t.Extended n u ∧ LinkInstanceOf draws t u l it ∧ t.links.size ≤ it ∧
        (u.linesOfLink it).generalisations.values = [l] ∧ (u.link it).source = source e ∧
          (u.link it).destination = destination e ∧ InstanceOf t u other e := by
  obtain ⟨t', run, wf', grown, made⟩ := run_createInstanceConcept draws n wf inside
  obtain ⟨first, second⟩ := ends t.concepts.size le_rfl
  obtain ⟨u, run', wf'', grown', linked, lines, atSource, atDestination⟩ :=
    run_createInstanceConceptLink draws n wf' l
      ⟨first.trans_le made.present, second.trans_le made.present⟩
  exact ⟨_, u, t.concepts.size, run_bind_eq_ok_iff.mpr ⟨_, t', run, run'⟩, wf'',
    grown.trans grown', linked.of_grown wf grown present, grown.links.size, lines, atSource,
    atDestination, made.grown wf' grown'⟩

theorem run_instantiateLink (draws : Draws) (n : ℕ) (wf : t.WellFormed)
    (present : l < t.links.size) (concept : ConceptRef) (inside : it < t.concepts.size) :
    ∃ l' u, (instantiateLink draws concept it l).run t = .ok l' u ∧ u.WellFormed ∧
      t.Extended n u ∧ LinkBetween draws t u concept it l l' := by
  obtain ⟨source, destination⟩ := wf.ends l present
  have old : ∀ e, t.concepts.size ≤ e → it < e + 1 := fun e beyond =>
    inside.trans_le (beyond.trans (Nat.le_succ e))
  -- the end at the concept is its instance, and an instance is made of the other end
  by_cases same : (t.link l).source = concept
  · obtain ⟨l', u, e, run, wf', grown, linked, new, lines, atSource, atDestination, made⟩ :=
      run_createEnd_bind draws n wf present destination (fun _ => it) id
        fun e beyond => ⟨old e beyond, Nat.lt_succ_self e⟩
    refine ⟨l', u, ?_, wf', grown, linked, new, lines, ?_⟩
    · rw [instantiateLink]
      change (if (t.link l).source = concept then _ else _ : SimulationProgram LinkRef).run t = _
      rw [if_pos same]
      exact run
    · rw [if_pos same, atDestination]
      exact ⟨atSource, made, inside.trans_le made.new⟩
  · obtain ⟨l', u, e, run, wf', grown, linked, new, lines, atSource, atDestination, made⟩ :=
      run_createEnd_bind draws n wf present source id (fun _ => it)
        fun e beyond => ⟨Nat.lt_succ_self e, old e beyond⟩
    refine ⟨l', u, ?_, wf', grown, linked, new, lines, ?_⟩
    · rw [instantiateLink]
      change (if (t.link l).source = concept then _ else _ : SimulationProgram LinkRef).run t = _
      rw [if_neg same]
      exact run
    · rw [if_neg same, atSource]
      exact ⟨atDestination, made, inside.trans_le made.new⟩

/-- The instances of several links. -/
theorem run_mapM_instantiateLink (draws : Draws) (n : ℕ) {links : List LinkRef}
    (wf : t.WellFormed) (present : ∀ l ∈ links, l < t.links.size) (concept : ConceptRef)
    (inside : it < t.concepts.size) :
    ∃ its u, (links.mapM (instantiateLink draws concept it)).run t = .ok its u ∧ u.WellFormed ∧
      t.Extended n u ∧ List.Forall₂ (LinkBetween draws t u concept it) links its := by
  induction links generalizing t with
  | nil => exact ⟨[], t, rfl, wf, .refl n t, .nil⟩
  | cons l rest ih =>
    rw [List.forall_mem_cons] at present
    obtain ⟨l', t', run, wf', grown, made⟩ :=
      run_instantiateLink draws n wf present.1 concept inside
    have present' : ∀ l ∈ rest, l < t'.links.size :=
      fun l member => (present.2 l member).trans_le grown.links.size
    obtain ⟨its, u, run', wf'', grown', all⟩ := ih wf' present' (inside.trans_le grown.size)
    refine ⟨l' :: its, u, ?_, wf'', grown.trans grown', .cons (made.grown wf' grown') ?_⟩
    · rw [List.mapM_cons]
      exact run_bind_eq_ok_iff.mpr ⟨l', t', run, run_bind_eq_ok_iff.mpr ⟨its, u, run', rfl⟩⟩
    · refine ((List.forall₂_and_left rest its).mpr ⟨present.2, all⟩).imp ?_
      exact fun l l' both => both.2.of_grown wf grown both.1

/-! ### An instance with its links -/

/-- An instance of a concept is given instances of links. -/
structure Made (draws : Draws) (heap t : Heap) (concept : ConceptRef) (links : List LinkRef)
    (made : ConceptRef × List LinkRef) : Prop where
  instanceOf : InstanceOf heap t concept made.1
  links : List.Forall₂ (LinkBetween draws heap t concept made.1) links made.2
  assigned : (t.concept made.1).conceptLinks = made.2

theorem Made.grown {links : List LinkRef} {made : ConceptRef × List LinkRef}
    (isMade : Made draws heap t concept links made) (wf : t.WellFormed)
    (grown : t.Extended t.concepts.size u) : Made draws heap u concept links made where
  instanceOf := isMade.instanceOf.grown wf grown
  links := isMade.links.imp fun _ _ between => between.grown wf grown
  assigned := by
    have present := isMade.instanceOf.present
    rw [grown.conceptLinks made.1 present present, isMade.assigned]

section Base

variable {setting : SimulationSetting} {stack : ℕ} {simulationModel : ConceptNetwork}
  {concepts processed rest : List ConceptRef}

/-- The links that get instances exist. -/
theorem notProcessedLinks_lt (wf : heap.WellFormed) {links : List LinkRef}
    (found : heap.notProcessedLinks setting.textCase simulationModel stack concepts processed c =
      some links) (member : l ∈ links) : l < heap.links.size := by
  rcases (Heap.mem_notProcessedLinks_iff found).mp member with incident | ⟨m, -, own | general⟩
  · exact wf.linked c l incident.own
  · exact wf.linked m l own
  · obtain ⟨g, -, own, -⟩ := general
    exact wf.linked g l own

/-- There are links for each of the concepts. -/
theorem length_notProcessedEach {links : List (List LinkRef)}
    (found : heap.notProcessedEach setting.textCase simulationModel stack concepts processed rest =
      some links) : rest.length = links.length := by
  induction rest generalizing processed links with
  | nil =>
    cases found
    rfl
  | cons c rest ih =>
    obtain ⟨own, -, found⟩ := Option.bind_eq_some_iff.mp found
    obtain ⟨others, foundOthers, found⟩ := Option.bind_eq_some_iff.mp found
    cases found
    rw [List.length_cons, List.length_cons, ih foundOthers]

variable (draws : Draws) (wf : heap.WellFormed) (holds : heap.HasNetwork simulationModel)
  (inside : ∀ d ∈ concepts, d < heap.concepts.size) (wf' : t.WellFormed)
  (grown : heap.Extended heap.concepts.size t)

include wf holds inside wf' grown

/-- The instance of a concept comes with instances of the links that were known before. -/
theorem run_instantiateConcept (present : c < heap.concepts.size) {links : List LinkRef}
    (found : heap.notProcessedLinks setting.textCase simulationModel stack concepts processed c =
      some links) :
    ∃ its u, (instantiateConcept draws setting stack simulationModel concepts processed c).run t =
        .ok (t.concepts.size, its) u ∧
      u.WellFormed ∧ t.Extended t.concepts.size u ∧
        Made draws heap u c links (t.concepts.size, its) := by
  obtain ⟨t', run, wf₁, grown₁, made⟩ := run_createInstanceConcept draws t.concepts.size wf'
    (present.trans_le grown.size)
  have since := grown.trans (grown₁.mono grown.size)
  have linksInside : ∀ l ∈ links, l < t'.links.size := fun l member =>
    (notProcessedLinks_lt wf found member).trans_le since.links.size
  obtain ⟨its, u, run', wf₂, grown₂, all⟩ := run_mapM_instantiateLink draws t.concepts.size wf₁
    linksInside c made.present
  have itsInside : ∀ l ∈ its, l < u.links.size := by
    intro l member
    obtain ⟨_, -, linked⟩ := exists_of_mem_right all member
    exact linked.present
  have there := made.present.trans_le grown₂.size
  have grown₃ : u.Extended t.concepts.size (u.withLinks t.concepts.size its) :=
    .withLinks there le_rfl its
  -- the links are looked for in the heap with the new concept, which changes none of them
  have looked := (since.notProcessedLinks_eq wf holds setting.textCase stack inside processed
    present).trans found
  refine ⟨its, u.withLinks t.concepts.size its, ?_, wf₂.withLinks there itsInside,
    grown₁.trans (grown₂.trans grown₃), ?_, ?_, ?_⟩
  · refine run_bind_eq_ok_iff.mpr ⟨_, t', run, ?_⟩
    simp only [EStateM.run_bind, EStateM.run_get, looked]
    exact run_bind_eq_ok_iff.mpr ⟨its, u, run', rfl⟩
  · exact (made.of_grown wf grown present).grown wf₁ (grown₂.trans grown₃)
  · have old : ∀ l ∈ links, l < heap.links.size := fun l => notProcessedLinks_lt wf found
    refine ((List.forall₂_and_left links its).mpr ⟨old, all⟩).imp fun l l' both => ?_
    exact (both.2.of_grown wf since both.1).grown wf₂ grown₃
  · rw [Heap.concept_withLinks, if_pos rfl]

/-- Where the search for links overflows the stack, the instance is not finished. -/
theorem run_instantiateConcept_of_none (present : c < heap.concepts.size)
    (overflows : heap.notProcessedLinks setting.textCase simulationModel stack concepts
      processed c = none) :
    ∃ u, (instantiateConcept draws setting stack simulationModel concepts processed c).run t =
      .error (.graph .stackOverflow) u := by
  obtain ⟨t', run, -, grown₁, -⟩ := run_createInstanceConcept draws heap.concepts.size wf'
    (present.trans_le grown.size)
  have looked := ((grown.trans grown₁).notProcessedLinks_eq wf holds setting.textCase stack inside
    processed present).trans overflows
  refine ⟨t', ?_⟩
  simp only [instantiateConcept, EStateM.run_bind, run, EStateM.run_get, looked]
  rfl

/-- The instances of concepts, in order and newer and newer, with those of their links. Every link
has an end that is none of the instances. -/
theorem run_instantiateEach (present : ∀ c ∈ rest, c < heap.concepts.size)
    {links : List (List LinkRef)}
    (found : heap.notProcessedEach setting.textCase simulationModel stack concepts processed rest =
      some links) :
    ∃ made u, (instantiateEach draws setting stack simulationModel concepts processed rest).run t =
        .ok made u ∧
      u.WellFormed ∧ t.Extended t.concepts.size u ∧
        List.Forall₂ (fun c => Made draws heap u c.1 c.2) (rest.zip links) made ∧
          (made.map Prod.fst).Pairwise (· < ·) ∧ (∀ it ∈ made.map Prod.fst, t.concepts.size ≤ it) ∧
            ∀ l' ∈ (made.map Prod.snd).flatten, ∃ e,
              ((u.link l').source = e ∨ (u.link l').destination = e) ∧ t.concepts.size ≤ e ∧
                e ∉ made.map Prod.fst := by
  -- on the concepts that remain; the links of an instance end where it has been made
  induction rest generalizing t processed links with
  | nil =>
    cases found
    exact ⟨[], t, rfl, wf', .refl _ t, .nil, .nil, List.forall_mem_nil _, List.forall_mem_nil _⟩
  | cons c rest ih =>
    rw [List.forall_mem_cons] at present
    obtain ⟨own, foundOwn, found⟩ := Option.bind_eq_some_iff.mp found
    obtain ⟨others, foundOthers, found⟩ := Option.bind_eq_some_iff.mp found
    cases found
    obtain ⟨its, t', run, wf₁, grown₁, first⟩ :=
      run_instantiateConcept draws wf holds inside wf' grown present.1 foundOwn
    obtain ⟨made, u, run', wf₂, grown₂, all, newer, new, outside⟩ :=
      ih wf₁ (grown.trans (grown₁.mono grown.size)) present.2 foundOthers
    have here : t.concepts.size < t'.concepts.size := first.instanceOf.present
    refine ⟨(t.concepts.size, its) :: made, u, ?_, wf₂, grown₁.trans (grown₂.mono grown₁.size),
      .cons (first.grown wf₁ grown₂) all, .cons ?_ newer, ?_, ?_⟩
    · exact run_bind_eq_ok_iff.mpr ⟨_, t', run, run_bind_eq_ok_iff.mpr ⟨made, u, run', rfl⟩⟩
    · exact fun it member => here.trans_le (new it member)
    · rw [List.map_cons, List.forall_mem_cons]
      exact ⟨le_rfl, fun it member => grown₁.size.trans (new it member)⟩
    · intro l' member
      simp only [List.map_cons, List.flatten_cons, List.mem_append, List.mem_cons] at member ⊢
      rcases member with own | later
      · -- the other end has been made before the instances that follow
        obtain ⟨l, -, between⟩ := exists_of_mem_right first.links own
        obtain ⟨e, isEnd, lt⟩ := between.exists_newer
        have exists_ : e < t'.concepts.size := by
          rcases isEnd with rfl | rfl
          · exact (wf₁.ends l' between.present).1
          · exact (wf₁.ends l' between.present).2
        refine ⟨e, ?_, lt.le, fun among => ?_⟩
        · rwa [grown₂.link_eq between.present]
        · rcases among with same | among
          · exact lt.ne' same
          · exact absurd (new e among) (Nat.not_le_of_lt exists_)
      · obtain ⟨e, isEnd, le, apart⟩ := outside l' later
        refine ⟨e, isEnd, grown₁.size.trans le, fun among => ?_⟩
        rcases among with same | among
        · exact absurd (same ▸ le) (Nat.not_le_of_lt here)
        · exact apart among

/-- Where a search for links overflows the stack, the creation of instances ends with it. -/
theorem run_instantiateEach_of_none (present : ∀ c ∈ rest, c < heap.concepts.size)
    (overflows : heap.notProcessedEach setting.textCase simulationModel stack concepts processed
      rest = none) :
    ∃ u, (instantiateEach draws setting stack simulationModel concepts processed rest).run t =
      .error (.graph .stackOverflow) u := by
  induction rest generalizing t processed with
  | nil => cases overflows
  | cons c rest ih =>
    rw [List.forall_mem_cons] at present
    rw [instantiateEach, EStateM.run_bind]
    cases own : heap.notProcessedLinks setting.textCase simulationModel stack concepts
        processed c with
    | none =>
      obtain ⟨u, run⟩ :=
        run_instantiateConcept_of_none draws wf holds inside wf' grown present.1 own
      exact ⟨u, by rw [run]⟩
    | some links =>
      obtain ⟨its, t', run, wf₁, grown₁, -⟩ :=
        run_instantiateConcept draws wf holds inside wf' grown present.1 own
      -- the search that overflows is one for a later concept
      have later : heap.notProcessedEach setting.textCase simulationModel stack concepts
          (processed ++ [c]) rest = none := by
        rw [Heap.notProcessedEach, own] at overflows
        cases others : heap.notProcessedEach setting.textCase simulationModel stack concepts
            (processed ++ [c]) rest with
        | none => rfl
        | some others' =>
          rw [others] at overflows
          cases overflows
      obtain ⟨u, run'⟩ := ih wf₁ (grown.trans (grown₁.mono grown.size)) present.2 later
      refine ⟨u, ?_⟩
      rw [run]
      change (instantiateEach draws setting stack simulationModel concepts (processed ++ [c]) rest >>=
        fun others => pure ((t.concepts.size, its) :: others)).run t' = _
      rw [EStateM.run_bind, run']

end Base

end Simulation

end ThinkingUnderstanding
