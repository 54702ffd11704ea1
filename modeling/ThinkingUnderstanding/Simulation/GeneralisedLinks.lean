import ThinkingUnderstanding.Simulation.Simulation

/-!
# The links of the generalisations of a concept

`getGeneralisedLinks` climbs from a concept to its generalisations. Wherever a concept has
links, it collects for each link the generalisations of all concepts that are simulated, and
keeps the link when its other end has the name of one of them. Both recursions are endless on
cycles, and the second one is reached through the first.

## Main definitions

* `LinkSearch`, `LinkSearch.next` — the calls of the recursions, and those that they make
* `Heap.EndsAbove` — the generalisations of a concept end
* `Heap.IsGeneralisedLink` — the links that are collected
* `Heap.IsTakenOver` — the links that get instances together with a concept

## Main results

* `isSome_getGeneralisedLinks_iff`, `acc_generalisedLinks_iff` — when the recursions fit on the
  stack, and on some stack
* `mem_getGeneralisedLinks_iff` — what is collected
* `isSome_notProcessedLinks_iff`, `mem_notProcessedLinks_iff` — the same, for all links that get
  instances
-/

namespace ThinkingUnderstanding

open Math

/-- A call of one of the two recursions. -/
inductive LinkSearch
  | generalisedLinks (concept : ConceptRef)
  | generalisationsRec (concept : ConceptRef)
  deriving DecidableEq, Repr

/-- The calls that a call makes. -/
def LinkSearch.next (heap : Heap) (incidentConcepts : List ConceptRef) :
    LinkSearch → List LinkSearch
  | generalisedLinks c =>
      (heap.generalisationsList c).map generalisedLinks ++
        if (heap.concept c).conceptLinks = [] then []
        else incidentConcepts.map generalisationsRec
  | generalisationsRec c => (heap.generalisationsList c).map generalisationsRec

namespace Heap

/-- The concept has a link, itself or by a generalisation, whose other end has the name of one
of the concepts or of an ancestor of it. -/
def IsGeneralisedLink (heap : Heap) (incidentConcepts : List ConceptRef) (concept : ConceptRef)
    (l : LinkRef) : Prop :=
  ∃ g, heap.Ancestor concept g ∧ l ∈ (heap.concept g).conceptLinks ∧
    ∃ d ∈ incidentConcepts, ∃ a, heap.Ancestor d a ∧
      (heap.uriOf a).name = (heap.uriOf (heap.otherEnd g l)).name

/-- The link is one of the concept, the model has one of its name, and its other end is not among
the concepts that have been processed. -/
structure IsIncident (heap : Heap) (textCase : TextCase) (simulationModel : ConceptNetwork)
    (processed : List ConceptRef) (concept : ConceptRef) (l : LinkRef) : Prop where
  own : l ∈ (heap.concept concept).conceptLinks
  named : heap.getLinkByName textCase simulationModel (heap.linkName l) ≠ []
  other : (heap.link l).source = concept ∧ (heap.link l).destination ∉ processed ∨
    (heap.link l).source ≠ concept ∧ (heap.link l).destination = concept ∧
      (heap.link l).source ∉ processed

/-- The link gets an instance together with the concept: it is incident to the concept, or it is
a link of the first concept of the model with its name, or of a generalisation of that one. -/
def IsTakenOver (heap : Heap) (textCase : TextCase) (simulationModel : ConceptNetwork)
    (concepts processed : List ConceptRef) (concept : ConceptRef) (l : LinkRef) : Prop :=
  heap.IsIncident textCase simulationModel processed concept l ∨
    ∃ m, (heap.getNodeByName simulationModel (heap.uriOf concept).name).head? = some m ∧
      (l ∈ (heap.concept m).conceptLinks ∨ heap.IsGeneralisedLink concepts m l)

variable {heap : Heap} {incidentConcepts checkList selected : List ConceptRef}
  {concept c : ConceptRef} {depth : ℕ} {links : List LinkRef} {l : LinkRef}

/-! ### When the recursions return -/

theorem isSome_selectWithGeneralisations_iff :
    (heap.selectWithGeneralisations depth concept checkList).isSome ↔
      ∀ c ∈ checkList, (heap.getGeneralisationsRec depth c).isSome := by
  rw [selectWithGeneralisations, isSome_filterM_iff]
  refine forall₂_congr fun c _ => ?_
  cases heap.getGeneralisationsRec depth c <;> rfl

theorem isSome_filteredConceptLinks_iff :
    (heap.filteredConceptLinks depth incidentConcepts c).isSome ↔
      ∀ l ∈ (heap.concept c).conceptLinks, ∀ d ∈ incidentConcepts,
        (heap.getGeneralisationsRec depth d).isSome := by
  rw [filteredConceptLinks, isSome_filterM_iff]
  refine forall₂_congr fun l _ => ?_
  rw [Option.isSome_map, isSome_selectWithGeneralisations_iff]

/-- One call returns when those that it makes do. -/
theorem isSome_getGeneralisedLinks_succ_iff :
    (heap.getGeneralisedLinks incidentConcepts (depth + 1) c).isSome ↔
      (∀ g ∈ heap.generalisationsList c,
        (heap.getGeneralisedLinks incidentConcepts depth g).isSome) ∧
      ∀ l ∈ (heap.concept c).conceptLinks, ∀ d ∈ incidentConcepts,
        (heap.getGeneralisationsRec depth d).isSome := by
  rw [generalisationsList, ← isSome_mapM_iff, ← isSome_filteredConceptLinks_iff,
    getGeneralisedLinks]
  cases (heap.generalisations c).values.mapM
      (heap.getGeneralisedLinks incidentConcepts depth) with
  | none => exact iff_of_false Bool.false_ne_true fun both => Bool.false_ne_true both.1
  | some gLinks =>
    rw [Option.isSome_some, eq_self, true_and]
    cases heap.filteredConceptLinks depth incidentConcepts c <;> rfl

/-- The links are collected unless some chain of calls is as long as the stack is deep. -/
theorem isSome_getGeneralisedLinks_iff :
    (heap.getGeneralisedLinks incidentConcepts depth c).isSome ↔
      ¬ HasWalk (LinkSearch.next heap incidentConcepts) depth (.generalisedLinks c) := by
  -- whether a call returns, for both recursions at once
  let result : ℕ → LinkSearch → Option Unit := fun depth search =>
    match search with
    | .generalisedLinks c => (heap.getGeneralisedLinks incidentConcepts depth c).map fun _ => ()
    | .generalisationsRec c => (heap.getGeneralisationsRec depth c).map fun _ => ()
  have both : (result depth (.generalisedLinks c)).isSome ↔
      ¬ HasWalk (LinkSearch.next heap incidentConcepts) depth (.generalisedLinks c) := by
    apply isSome_iff_not_hasWalk
    · rintro (c | c) <;> rfl
    · rintro depth (c | c)
      · rw [Option.isSome_map, isSome_getGeneralisedLinks_succ_iff, LinkSearch.next,
          List.forall_mem_append, List.forall_mem_map]
        refine and_congr (forall₂_congr fun g _ => by rw [Option.isSome_map]) ?_
        split
        case isTrue none => simp [none]
        case isFalse some =>
          obtain ⟨l, member⟩ := List.exists_mem_of_ne_nil _ some
          simp only [List.forall_mem_map, result, Option.isSome_map]
          exact ⟨fun all => all l member, fun all _ _ => all⟩
      · rw [Option.isSome_map, LinkSearch.next, List.forall_mem_map, generalisationsList,
          getGeneralisationsRec]
        simp only [result, Option.isSome_map]
        rw [← isSome_mapM_iff]
        cases (heap.generalisations c).values.mapM (heap.getGeneralisationsRec depth) <;> rfl
  rwa [Option.isSome_map] at both

/-- No chain of generalisations goes on for ever. -/
def EndsAbove (heap : Heap) (c : ConceptRef) : Prop :=
  Acc (fun g c => g ∈ heap.generalisationsList c) c

theorem acc_generalisationsRec_iff :
    Acc (fun next search => next ∈ LinkSearch.next heap incidentConcepts search)
      (.generalisationsRec c) ↔ heap.EndsAbove c := by
  constructor
  · intro acc
    generalize same : LinkSearch.generalisationsRec c = search at acc
    induction acc generalizing c with
    | intro search _ ih =>
      subst same
      exact ⟨c, fun g general => ih _ (List.mem_map_of_mem general) rfl⟩
  · intro ends
    induction ends with
    | intro c _ ih =>
      constructor
      intro search called
      obtain ⟨g, general, rfl⟩ := List.mem_map.mp called
      exact ih g general

/-- The search for links ends on some stack when there is an end above the concept and, if the
concept or one of its ancestors has links, above all concepts that are simulated. -/
theorem acc_generalisedLinks_iff :
    Acc (fun next search => next ∈ LinkSearch.next heap incidentConcepts search)
      (.generalisedLinks c) ↔
        heap.EndsAbove c ∧ ∀ g, heap.Ancestor c g → (heap.concept g).conceptLinks ≠ [] →
          ∀ d ∈ incidentConcepts, heap.EndsAbove d := by
  constructor
  · intro acc
    generalize same : LinkSearch.generalisedLinks c = search at acc
    -- on the calls of the search: those for the generalisations, and the selections
    induction acc generalizing c with
    | intro search below ih =>
      subst same
      have above : ∀ g ∈ heap.generalisationsList c, _ := fun g general =>
        ih (.generalisedLinks g) (List.mem_append_left _ (List.mem_map_of_mem general)) rfl
      refine ⟨⟨c, fun g general => (above g general).1⟩, fun g up linked d inside => ?_⟩
      rcases ancestor_iff.mp up with rfl | ⟨g', general, up⟩
      · apply acc_generalisationsRec_iff.mp (below _ (List.mem_append_right _ _))
        rw [if_neg linked]
        exact List.mem_map_of_mem inside
      · exact (above g' general).2 g up linked d inside
  · rintro ⟨ends, others⟩
    -- on the ancestors, which end
    induction ends with
    | intro c _ ih =>
      constructor
      intro search called
      rcases List.mem_append.mp called with climbs | selects
      · obtain ⟨g, general, rfl⟩ := List.mem_map.mp climbs
        refine ih g general fun g' up => others g' ?_
        exact ancestor_iff.mpr (Or.inr ⟨g, general, up⟩)
      · split_ifs at selects with none
        · cases selects
        · obtain ⟨d, inside, rfl⟩ := List.mem_map.mp selects
          exact acc_generalisationsRec_iff.mpr
            (others c Relation.ReflTransGen.refl none d inside)

/-! ### What they return -/

/-- The concepts are selected that have the name, or an ancestor with it. -/
theorem mem_selectWithGeneralisations_iff
    (returns : heap.selectWithGeneralisations depth concept checkList = some selected) :
    c ∈ selected ↔ c ∈ checkList ∧
      ∃ a, heap.Ancestor c a ∧ (heap.uriOf a).name = (heap.uriOf concept).name := by
  have returned : (heap.selectWithGeneralisations depth concept checkList).isSome := returns ▸ rfl
  have defined := isSome_selectWithGeneralisations_iff.mp returned
  rw [eq_filter_of_filterM_eq_some returns, List.mem_filter]
  refine and_congr_right fun member => ?_
  obtain ⟨collected, has⟩ := Option.isSome_iff_exists.mp (defined c member)
  simp only [has, Option.pure_def, Option.bind_eq_bind, Option.bind_some, Option.getD_some,
    Bool.or_eq_true, decide_eq_true_eq, gt_iff_lt, List.length_pos_iff_exists_mem, List.mem_filter,
    mem_getGeneralisationsRec_iff has]
  constructor
  · rintro (⟨a, ⟨g, general, up⟩, named⟩ | named)
    · exact ⟨a, ancestor_iff.mpr (Or.inr ⟨g, general, up⟩), named⟩
    · exact ⟨c, Relation.ReflTransGen.refl, named⟩
  · rintro ⟨a, up, named⟩
    rcases ancestor_iff.mp up with rfl | higher
    · exact Or.inr named
    · exact Or.inl ⟨a, higher, named⟩

/-- The links of a concept that are kept. -/
theorem mem_filteredConceptLinks_iff
    (returns : heap.filteredConceptLinks depth incidentConcepts c = some links) :
    l ∈ links ↔ l ∈ (heap.concept c).conceptLinks ∧
      ∃ d ∈ incidentConcepts, ∃ a, heap.Ancestor d a ∧
        (heap.uriOf a).name = (heap.uriOf (heap.otherEnd c l)).name := by
  have returned : (heap.filteredConceptLinks depth incidentConcepts c).isSome := returns ▸ rfl
  rw [eq_filter_of_filterM_eq_some returns, List.mem_filter]
  refine and_congr_right fun member => ?_
  have defined := isSome_filterM_iff.mp returned l member
  rw [Option.isSome_map] at defined
  obtain ⟨selected, has⟩ := Option.isSome_iff_exists.mp defined
  simp only [has, Option.map_some, Option.getD_some, decide_eq_true_eq, gt_iff_lt,
    List.length_pos_iff_exists_mem, mem_selectWithGeneralisations_iff has]

/-- The links that are collected. -/
theorem mem_getGeneralisedLinks_iff
    (returns : heap.getGeneralisedLinks incidentConcepts depth c = some links) :
    l ∈ links ↔ heap.IsGeneralisedLink incidentConcepts c l := by
  induction depth generalizing c links with
  | zero => cases returns
  | succ depth ih =>
    obtain ⟨gLinks, hgLinks, returns⟩ := Option.bind_eq_some_iff.mp returns
    obtain ⟨filtered, hfiltered, returns⟩ := Option.bind_eq_some_iff.mp returns
    obtain rfl := Option.some.inj returns
    rw [List.mem_append, mem_filteredConceptLinks_iff hfiltered, List.mem_flatten]
    constructor
    · rintro (⟨own, selected⟩ | ⟨found, inside, member⟩)
      · exact ⟨c, Relation.ReflTransGen.refl, own, selected⟩
      · obtain ⟨g, general, has⟩ := (mem_mapM_iff hgLinks).mp inside
        obtain ⟨g', up, rest⟩ := (ih has).mp member
        exact ⟨g', ancestor_iff.mpr (Or.inr ⟨g, general, up⟩), rest⟩
    · rintro ⟨g', up, own, selected⟩
      rcases ancestor_iff.mp up with rfl | ⟨g, general, up⟩
      · exact Or.inl ⟨own, selected⟩
      · -- the search has returned, so those for the generalisations have
        have defined := isSome_mapM_iff.mp (hgLinks ▸ rfl :
          ((heap.generalisations c).values.mapM
            (heap.getGeneralisedLinks incidentConcepts depth)).isSome)
        obtain ⟨found, has⟩ := Option.isSome_iff_exists.mp (defined g general)
        exact Or.inr ⟨found, (mem_mapM_iff hgLinks).mpr ⟨g, general, has⟩,
          (ih has).mpr ⟨g', up, own, selected⟩⟩

/-! ### The links that get instances -/

variable {textCase : TextCase} {simulationModel : ConceptNetwork}
  {concepts processed : List ConceptRef}

theorem mem_incidentLinksNotProcessed_iff :
    l ∈ heap.incidentLinksNotProcessed textCase simulationModel processed c ↔
      heap.IsIncident textCase simulationModel processed c l := by
  rw [incidentLinksNotProcessed, List.mem_filter]
  constructor
  · rintro ⟨own, passes⟩
    split_ifs at passes with some source destination
    · exact ⟨own, List.length_pos_iff.mp some, Or.inl ⟨source, of_decide_eq_true passes⟩⟩
    · exact ⟨own, List.length_pos_iff.mp some,
        Or.inr ⟨source, destination, of_decide_eq_true passes⟩⟩
  · rintro ⟨own, named, ⟨source, outside⟩ | ⟨source, destination, outside⟩⟩
    · rw [if_pos (List.length_pos_iff.mpr named), if_pos source]
      exact ⟨own, decide_eq_true outside⟩
    · rw [if_pos (List.length_pos_iff.mpr named), if_neg source, if_pos destination]
      exact ⟨own, decide_eq_true outside⟩

/-- The links are known when those of the model's concept are, if it has one. -/
theorem isSome_notProcessedLinks_iff :
    (heap.notProcessedLinks textCase simulationModel depth concepts processed c).isSome ↔
      ∀ m, (heap.getNodeByName simulationModel (heap.uriOf c).name).head? = some m →
        (heap.getGeneralisedLinks concepts depth m).isSome := by
  rw [notProcessedLinks, modelLinksNotProcessed]
  cases heap.getNodeByName simulationModel (heap.uriOf c).name with
  | nil => exact iff_of_true rfl fun _ none => nomatch none
  | cons m rest =>
    rw [List.head?_cons]
    simp only [Option.some_inj, forall_eq']
    cases heap.getGeneralisedLinks concepts depth m <;> rfl

/-- The links are the incident ones and, if the model has a concept of the name, those of it and
of its generalisations that are not incident. -/
theorem notProcessedLinks_cases
    (returns : heap.notProcessedLinks textCase simulationModel depth concepts processed c =
      some links) :
    ((heap.getNodeByName simulationModel (heap.uriOf c).name).head? = none ∧
        links = heap.incidentLinksNotProcessed textCase simulationModel processed c) ∨
      ∃ m gLinks, (heap.getNodeByName simulationModel (heap.uriOf c).name).head? = some m ∧
        heap.getGeneralisedLinks concepts depth m = some gLinks ∧
          links = heap.incidentLinksNotProcessed textCase simulationModel processed c ++
            ((heap.concept m).conceptLinks ++ gLinks).filter fun l =>
              l ∉ heap.incidentLinksNotProcessed textCase simulationModel processed c := by
  rw [notProcessedLinks, modelLinksNotProcessed] at returns
  cases found : heap.getNodeByName simulationModel (heap.uriOf c).name with
  | nil =>
    rw [found] at returns
    obtain rfl := Option.some.inj returns
    exact Or.inl ⟨rfl, List.append_nil _⟩
  | cons m rest =>
    rw [found] at returns
    obtain ⟨modelLinks, has, returns⟩ := Option.bind_eq_some_iff.mp returns
    obtain ⟨gLinks, hasg, has⟩ := Option.bind_eq_some_iff.mp has
    obtain rfl := Option.some.inj returns
    obtain rfl := Option.some.inj has
    refine Or.inr ⟨m, gLinks, rfl, hasg, ?_⟩
    rw [List.filter_append]
    cases gLinks <;> rfl

theorem mem_notProcessedLinks_iff
    (returns : heap.notProcessedLinks textCase simulationModel depth concepts processed c =
      some links) :
    l ∈ links ↔ heap.IsTakenOver textCase simulationModel concepts processed c l := by
  rw [IsTakenOver, ← mem_incidentLinksNotProcessed_iff]
  rcases notProcessedLinks_cases returns with ⟨none, rfl⟩ | ⟨m, gLinks, found, has, rfl⟩
  · simp [none]
  · simp only [found, Option.some_inj, exists_eq_left', List.mem_append, List.mem_filter,
      decide_eq_true_eq, mem_getGeneralisedLinks_iff has]
    tauto

end Heap

end ThinkingUnderstanding
