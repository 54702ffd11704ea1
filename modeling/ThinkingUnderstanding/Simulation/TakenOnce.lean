import ThinkingUnderstanding.Math.Counting
import ThinkingUnderstanding.Simulation.LinkEnds

/-!
# Does a link get more than one instance?

A link should get at most one instance, from whatever concept it is come to. It is come to from its
source and its destination, from the concept of the model, and from each generalisation of that
one, once for every way up. The list of concepts that have been processed only keeps a link from
being found again as an incident one.

## Main definitions

* `Simulation.InstantiatesOnce` — every link has at most one instance in a network
* `Heap.SelectedAt` — the links of a generalisation that are kept
* `Heap.OncePerConcept`, `Heap.TakenOverOnce` — the condition, for one concept and for all

## Main results

* `perm_getGeneralisedLinks` — generalised links, as often as there are ways up
* `instantiatesOnce_iff` — when links have a single instance
-/

namespace ThinkingUnderstanding

open Math Semantics

namespace Heap

/-- The link is one of the concept, and its other end has the name of one of the concepts that are
simulated, or of an ancestor of it. -/
def SelectedAt (heap : Heap) (concepts : List ConceptRef) (g : ConceptRef) (l : LinkRef) : Prop :=
  l ∈ (heap.concept g).conceptLinks ∧ ∃ d ∈ concepts, ∃ a, heap.Ancestor d a ∧
    (heap.uriOf a).name = (heap.uriOf (heap.otherEnd g l)).name

/-- No link is come to twice from a concept: an incident link is listed once by the concept, and
any other is either listed once by the concept of the model, and by none of its generalisations, or
it is listed once by a single generalisation to which there is a single way. -/
structure OncePerConcept (heap : Heap) (textCase : TextCase) (simulationModel : ConceptNetwork)
    (concepts processed : List ConceptRef) (c : ConceptRef) : Prop where
  incident : ∀ l, heap.IsIncident textCase simulationModel processed c l →
    (heap.concept c).conceptLinks.count l ≤ 1
  own : ∀ m, (heap.getNodeByName simulationModel (heap.uriOf c).name).head? = some m →
    ∀ l ∈ (heap.concept m).conceptLinks,
      ¬ heap.IsIncident textCase simulationModel processed c l →
        (heap.concept m).conceptLinks.count l ≤ 1 ∧ ¬ heap.IsGeneralisedLink concepts m l
  listed : ∀ m, (heap.getNodeByName simulationModel (heap.uriOf c).name).head? = some m →
    ∀ g, heap.Ancestor m g → ∀ l, ¬ heap.IsIncident textCase simulationModel processed c l →
      heap.SelectedAt concepts g l → (heap.concept g).conceptLinks.count l ≤ 1
  single : ∀ m, (heap.getNodeByName simulationModel (heap.uriOf c).name).head? = some m →
    ∀ depth collected, heap.getGeneralisationsRec depth m = some collected →
      (m :: collected).Pairwise fun g g' => ∀ l,
        ¬ heap.IsIncident textCase simulationModel processed c l →
          heap.SelectedAt concepts g l → ¬ heap.SelectedAt concepts g' l

/-- No link is come to twice from one concept, or from two. -/
structure TakenOverOnce (heap : Heap) (textCase : TextCase) (simulationModel : ConceptNetwork)
    (concepts : List ConceptRef) : Prop where
  each : ∀ before c after, concepts = before ++ c :: after →
    heap.OncePerConcept textCase simulationModel concepts before c
  apart : ∀ before c between d after, concepts = before ++ c :: (between ++ d :: after) →
    ∀ l, heap.IsTakenOver textCase simulationModel concepts before c l →
      ¬ heap.IsTakenOver textCase simulationModel concepts (before ++ c :: between) d l

variable {heap : Heap} {textCase : TextCase} {simulationModel : ConceptNetwork} {depth : ℕ}
  {concepts processed rest : List ConceptRef} {c m : ConceptRef} {links : List LinkRef}
  {l : LinkRef}

/-! ### The links of the generalisations -/

open Classical in
/-- The links of a concept that are kept. -/
noncomputable def selectedLinks (heap : Heap) (concepts : List ConceptRef) (g : ConceptRef) :
    List LinkRef :=
  (heap.concept g).conceptLinks.filter fun l => decide (heap.SelectedAt concepts g l)

theorem filteredConceptLinks_eq_selectedLinks
    (returns : heap.filteredConceptLinks depth concepts c = some links) :
    links = heap.selectedLinks concepts c := by
  classical
  have kept : ∀ l, l ∈ links ↔ heap.SelectedAt concepts c l := fun l =>
    mem_filteredConceptLinks_iff returns
  rw [eq_filter_of_filterM_eq_some returns] at kept ⊢
  apply List.filter_congr
  intro l member
  have same := kept l
  rw [List.mem_filter, and_iff_right member] at same
  rw [Bool.eq_iff_iff, decide_eq_true_eq]
  exact same

/-- A deeper stack does not change what is collected. -/
theorem getGeneralisationsRec_of_le {collected : List ConceptRef} {deeper : ℕ}
    (le : depth ≤ deeper) (returns : heap.getGeneralisationsRec depth c = some collected) :
    heap.getGeneralisationsRec deeper c = some collected := by
  induction depth generalizing c collected deeper with
  | zero => cases returns
  | succ depth ih =>
    obtain ⟨deeper, rfl⟩ := Nat.exists_eq_succ_of_ne_zero (Nat.ne_zero_of_lt le)
    have le' := Nat.le_of_succ_le_succ le
    obtain ⟨res, has, returns⟩ := Option.bind_eq_some_iff.mp returns
    have same := mapM_congr fun g (member : g ∈ (heap.generalisations c).values) => by
      obtain ⟨found, hasFound⟩ := Option.isSome_iff_exists.mp
        (isSome_mapM_iff.mp (Option.isSome_of_eq_some has) g member)
      exact (ih le' hasFound).trans hasFound.symm
    rw [getGeneralisationsRec, same, has]
    exact returns

/-- What is collected does not depend on the stack. -/
theorem getGeneralisationsRec_unique {collected collected' : List ConceptRef} {depth' : ℕ}
    (returns : heap.getGeneralisationsRec depth c = some collected)
    (returns' : heap.getGeneralisationsRec depth' c = some collected') :
    collected = collected' := by
  have first := getGeneralisationsRec_of_le (le_max_left depth depth') returns
  have second := getGeneralisationsRec_of_le (le_max_right depth depth') returns'
  exact Option.some.inj (first.symm.trans second)

/-- The generalised links of a concept are those kept of the concept itself and of what is
collected above it, one after the other. -/
theorem perm_getGeneralisedLinks
    (returns : heap.getGeneralisedLinks concepts depth c = some links) :
    ∃ collected, heap.getGeneralisationsRec depth c = some collected ∧
      links.Perm ((c :: collected).flatMap (heap.selectedLinks concepts)) := by
  induction depth generalizing c links with
  | zero => cases returns
  | succ depth ih =>
    obtain ⟨gLinks, hasg, returns⟩ := Option.bind_eq_some_iff.mp returns
    obtain ⟨filtered, hasf, returns⟩ := Option.bind_eq_some_iff.mp returns
    obtain rfl := Option.some.inj returns
    obtain rfl := filteredConceptLinks_eq_selectedLinks hasf
    let gens := (heap.generalisations c).values
    -- what the recursions return for the generalisations
    let above : ConceptRef → List LinkRef := fun g =>
      (heap.getGeneralisedLinks concepts depth g).getD []
    let collected : ConceptRef → List ConceptRef := fun g =>
      (heap.getGeneralisationsRec depth g).getD []
    have each : ∀ g ∈ gens, heap.getGeneralisedLinks concepts depth g = some (above g) ∧
        heap.getGeneralisationsRec depth g = some (collected g) ∧
          (above g).Perm ((g :: collected g).flatMap (heap.selectedLinks concepts)) := by
      intro g member
      obtain ⟨found, has⟩ := Option.isSome_iff_exists.mp
        (isSome_mapM_iff.mp (Option.isSome_of_eq_some hasg) g member)
      obtain ⟨coll, hasc, perm⟩ := ih has
      simp only [above, collected, has, hasc, Option.getD_some, true_and]
      exact perm
    have first := mapM_eq_some fun g member => (each g member).1
    have second := mapM_eq_some fun g member => (each g member).2.1
    obtain rfl := Option.some.inj (hasg.symm.trans first)
    refine ⟨(gens.map collected).flatten ++ gens, ?_, ?_⟩
    · rw [getGeneralisationsRec, second]
      rfl
    · rw [List.flatMap_cons, ← List.flatMap_def]
      refine List.Perm.append_left _ ?_
      calc (gens.flatMap above).Perm (gens.flatMap fun g => heap.selectedLinks concepts g ++
              (collected g).flatMap (heap.selectedLinks concepts)) :=
            .flatMap_left gens fun g member => (each g member).2.2
        List.Perm _ (gens.flatMap (heap.selectedLinks concepts) ++
              gens.flatMap fun g => (collected g).flatMap (heap.selectedLinks concepts)) :=
            (List.flatMap_append_perm gens _ _).symm
        List.Perm _ (((gens.map collected).flatten ++ gens).flatMap
              (heap.selectedLinks concepts)) := by
            rw [List.flatMap_append, ← List.flatMap_def, List.flatMap_assoc]
            exact List.perm_append_comm

theorem mem_filter_selectedLinks_iff {g : ConceptRef} {p : LinkRef → Bool} :
    l ∈ (heap.selectedLinks concepts g).filter p ↔ p l ∧ heap.SelectedAt concepts g l := by
  classical
  rw [List.mem_filter, selectedLinks, List.mem_filter, decide_eq_true_eq, and_comm]
  exact and_congr_right fun _ => and_iff_right_of_imp And.left

/-- No generalised link that passes occurs twice when each is listed once, by a single one of the
generalisations, to which there is a single way. -/
theorem nodup_filter_getGeneralisedLinks_iff {p : LinkRef → Bool}
    (returns : heap.getGeneralisedLinks concepts depth m = some links) :
    (links.filter p).Nodup ↔
      (∀ g, heap.Ancestor m g → ∀ l, p l → heap.SelectedAt concepts g l →
        (heap.concept g).conceptLinks.count l ≤ 1) ∧
      ∀ depth collected, heap.getGeneralisationsRec depth m = some collected →
        (m :: collected).Pairwise fun g g' => ∀ l, p l → heap.SelectedAt concepts g l →
          ¬ heap.SelectedAt concepts g' l := by
  obtain ⟨collected, has, perm⟩ := perm_getGeneralisedLinks returns
  -- the links are those of the concept and of its ancestors, in some order
  have isAncestor : ∀ g, g ∈ m :: collected ↔ heap.Ancestor m g := fun g => by
    rw [List.mem_cons, mem_getGeneralisationsRec_iff has, ancestor_iff, eq_comm]
  have listed : ∀ g, ((heap.selectedLinks concepts g).filter p).Nodup ↔
      ∀ l, p l → heap.SelectedAt concepts g l → (heap.concept g).conceptLinks.count l ≤ 1 := by
    intro g
    simp only [← and_imp, ← mem_filter_selectedLinks_iff]
    rw [selectedLinks, List.filter_filter]
    exact nodup_filter_iff
  rw [(perm.filter p).nodup_iff, List.filter_flatMap, List.nodup_flatMap]
  simp only [listed, isAncestor]
  refine and_congr_right fun _ => ?_
  have apart : (m :: collected).Pairwise
      (Function.onFun List.Disjoint fun g => (heap.selectedLinks concepts g).filter p) ↔
      (m :: collected).Pairwise fun g g' => ∀ l, p l → heap.SelectedAt concepts g l →
        ¬ heap.SelectedAt concepts g' l := by
    refine List.Pairwise.iff fun g g' => forall_congr' fun l => ?_
    rw [mem_filter_selectedLinks_iff, mem_filter_selectedLinks_iff]
    tauto
  rw [apart]
  constructor
  · intro apart depth' collected' has'
    obtain rfl := getGeneralisationsRec_unique has has'
    exact apart
  · exact fun apart => apart depth collected has

/-! ### The links that are taken over -/

theorem nodup_incidentLinksNotProcessed_iff :
    (heap.incidentLinksNotProcessed textCase simulationModel processed c).Nodup ↔
      ∀ l, heap.IsIncident textCase simulationModel processed c l →
        (heap.concept c).conceptLinks.count l ≤ 1 := by
  simp only [← mem_incidentLinksNotProcessed_iff]
  exact nodup_filter_iff

/-- The links that an instance gets instances of are different when no link is come to twice. -/
theorem nodup_notProcessedLinks_iff
    (returns : heap.notProcessedLinks textCase simulationModel depth concepts processed c =
      some links) :
    links.Nodup ↔ heap.OncePerConcept textCase simulationModel concepts processed c := by
  rcases notProcessedLinks_cases returns with ⟨none, rfl⟩ | ⟨m, gLinks, found, has, rfl⟩
  · -- no concept of the model matches, and the links are the incident ones alone
    rw [nodup_incidentLinksNotProcessed_iff]
    constructor
    · intro incident
      constructor
      case incident => exact incident
      all_goals
        intro m found
        rw [none] at found
        cases found
    · exact OncePerConcept.incident
  · -- otherwise the links are three lists, two of them without the incident links,
    -- and the list is free of repetitions when each is and the last two are disjoint
    set incident := heap.incidentLinksNotProcessed textCase simulationModel processed c with same
    have outside : ∀ l, decide (l ∉ incident) = true ↔
        ¬ heap.IsIncident textCase simulationModel processed c l := fun l => by
      rw [decide_eq_true_eq, same, mem_incidentLinksNotProcessed_iff]
    have apart : List.Disjoint incident
        (((heap.concept m).conceptLinks ++ gLinks).filter fun l => l ∉ incident) :=
      fun l inside passes => of_decide_eq_true (List.mem_filter.mp passes).2 inside
    have general := nodup_filter_getGeneralisedLinks_iff (p := fun l => l ∉ incident) has
    have listed : ((heap.concept m).conceptLinks.filter fun l => l ∉ incident).Nodup ↔ _ :=
      nodup_filter_iff
    simp only [outside] at general
    simp only [List.mem_filter, outside, and_imp] at listed
    constructor
    · intro nodup
      rw [List.filter_append] at nodup
      obtain ⟨first, others, -⟩ := List.nodup_append'.mp nodup
      obtain ⟨own, generalised, disjoint⟩ := List.nodup_append'.mp others
      constructor
      case incident => exact nodup_incidentLinksNotProcessed_iff.mp first
      all_goals
        intro m' found'
        obtain rfl : m = m' := Option.some.inj (found.symm.trans found')
      case own =>
        intro l member passes
        refine ⟨listed.mp own l member passes, fun isGeneralised => ?_⟩
        have inside := (mem_getGeneralisedLinks_iff has).mpr isGeneralised
        exact disjoint (List.mem_filter.mpr ⟨member, (outside l).mpr passes⟩)
          (List.mem_filter.mpr ⟨inside, (outside l).mpr passes⟩)
      case listed => exact (general.mp generalised).1
      case single => exact (general.mp generalised).2
    · intro once
      have own := listed.mpr fun l member passes => (once.own m found l member passes).1
      have generalised := general.mpr ⟨once.listed m found, once.single m found⟩
      rw [List.filter_append] at apart ⊢
      refine (nodup_incidentLinksNotProcessed_iff.mpr once.incident).append
        (own.append generalised fun l member inside => ?_) apart
      obtain ⟨member, passes⟩ := List.mem_filter.mp member
      exact (once.own m found l member ((outside l).mp passes)).2
        ((mem_getGeneralisedLinks_iff has).mp (List.mem_of_mem_filter inside))

end Heap

namespace Simulation

/-- Every link has at most one instance among the links of the network. -/
def InstantiatesOnce (t : Heap) (network : SimulatedNetwork) : Prop :=
  ∀ l, network.links.countP (fun l' => l ∈ (t.linesOfLink l').generalisations.values) ≤ 1

variable {heap t : Heap} {draws : Draws} {setting : SimulationSetting} {stack : ℕ}
  {simulationModel : ConceptNetwork} {textCase : TextCase} {depth : ℕ}
  {concepts processed rest : List ConceptRef} {name : String} {network : SimulatedNetwork}
  {links : List (List LinkRef)}

/-- The links have at most one instance when those that have been found are different. -/
theorem NetworkOf.nodup_flatten_iff (made : NetworkOf draws heap t concepts links name network) :
    InstantiatesOnce t network ↔ links.flatten.Nodup := by
  rw [List.nodup_iff_count_le_one]
  refine forall_congr' fun l => ?_
  rw [List.count, countP_eq_of_forall₂ made.linkInstances
    (q := fun l' => l ∈ (t.linesOfLink l').generalisations.values)]
  rintro l₀ l' ⟨-, parent⟩
  rw [parent, Bool.eq_iff_iff, beq_iff_eq, decide_eq_true_eq, List.mem_singleton]
  exact eq_comm

/-- The links that are found are different when none is come to twice from one of the concepts, or
from two. -/
theorem nodup_flatten_notProcessedEach_iff
    (found : heap.notProcessedEach textCase simulationModel depth concepts processed rest =
      some links) :
    links.flatten.Nodup ↔ ∀ before c after, rest = before ++ c :: after →
      heap.OncePerConcept textCase simulationModel concepts (processed ++ before) c ∧
        ∀ between d after', after = between ++ d :: after' → ∀ l,
          heap.IsTakenOver textCase simulationModel concepts (processed ++ before) c l →
            ¬ heap.IsTakenOver textCase simulationModel concepts
              (processed ++ before ++ c :: between) d l := by
  induction rest generalizing processed links with
  | nil =>
    cases found
    simp
  | cons c rest ih =>
    obtain ⟨own, others, foundOwn, foundOthers, rfl⟩ := exists_of_notProcessedEach_cons found
    -- the links of the first concept are not taken over by a later one
    have apart : own.Disjoint others.flatten ↔ ∀ between d after', rest = between ++ d :: after' →
        ∀ l, heap.IsTakenOver textCase simulationModel concepts processed c l →
          ¬ heap.IsTakenOver textCase simulationModel concepts (processed ++ c :: between) d l := by
      simp only [List.Disjoint, Heap.mem_notProcessedLinks_iff foundOwn,
        mem_flatten_notProcessedEach_iff foundOthers, ← List.append_cons]
      constructor
      · exact fun none between d after' split l taken taken' =>
          none taken ⟨between, d, after', split, taken'⟩
      · rintro all l taken ⟨between, d, after', split, taken'⟩
        exact all between d after' split l taken taken'
    rw [List.flatten_cons, List.nodup_append', Heap.nodup_notProcessedLinks_iff foundOwn,
      ih foundOthers, apart, forall_split_cons_iff]
    simp only [List.append_nil, List.append_assoc, List.cons_append, List.nil_append]
    tauto

theorem takenOverOnce_iff
    (found : heap.notProcessedEach textCase simulationModel depth concepts [] concepts =
      some links) :
    heap.TakenOverOnce textCase simulationModel concepts ↔ links.flatten.Nodup := by
  rw [nodup_flatten_notProcessedEach_iff found]
  constructor
  · rintro ⟨each, apart⟩ before c after split
    refine ⟨each before c after split, ?_⟩
    rintro between d after' rfl
    exact apart before c between d after' split
  · intro all
    constructor
    · exact fun before c after split => (all before c after split).1
    · exact fun before c between d after split =>
        (all before c (between ++ d :: after) split).2 between d after rfl

/-- The links have at most one instance exactly when none is taken over twice. -/
theorem instantiatesOnce_iff (wf : heap.WellFormed) (holds : heap.HasNetwork simulationModel)
    (inside : ∀ c ∈ concepts, c < heap.concepts.size)
    (run : (instantiateConcepts draws setting stack simulationModel concepts name).run heap =
      .ok network t) :
    InstantiatesOnce t network ↔
      heap.TakenOverOnce setting.textCase simulationModel concepts := by
  obtain ⟨links, found, made⟩ := networkOf_of_run draws wf holds inside name run
  exact made.nodup_flatten_iff.trans (takenOverOnce_iff found).symm

/-! ### A user of a browser -/

/-- The person alone gets a single instance of the link. -/
theorem person_once : ∃ network t, instantiated [0] [0, 2] [0] = .ok network t ∧
    InstantiatesOnce t network := by
  have found : userOfBrowser.notProcessedEach plainSetting.textCase
      { nodes := [0, 2], links := [0] } 4 [0] [] [0] = some [[0]] := by decide +kernel
  obtain ⟨network, t, run, -⟩ := run_instantiated (by decide +kernel) found
  refine ⟨network, t, run, (instantiatesOnce_iff wellFormed_userOfBrowser
    ⟨by decide +kernel, by decide +kernel⟩ (by decide +kernel) run).mpr ?_⟩
  exact (takenOverOnce_iff found).mpr (List.nodup_singleton 0)

/-- The link between the person and the browser gets three instances. -/
theorem personAndBrowser_not_once : ∃ network t,
    instantiated [0, 2] [0, 2] [0] = .ok network t ∧ ¬ InstantiatesOnce t network := by
  have found : userOfBrowser.notProcessedEach plainSetting.textCase
      { nodes := [0, 2], links := [0] } 4 [0, 2] [] [0, 2] = some [[0], [0, 0]] := by decide +kernel
  obtain ⟨network, t, run, made⟩ := run_instantiated (by decide +kernel) found
  refine ⟨network, t, run, fun once => ?_⟩
  have different := made.nodup_flatten_iff.mp once
  exact absurd different (by decide)

end Simulation

end ThinkingUnderstanding
