import Mathlib.Data.Finset.Card
import ThinkingUnderstanding.Math.FreshChain
import ThinkingUnderstanding.Model.Heap

/-!
# The search for a path to the target model

`Correlation.findPathToTarget` follows the links of a concept to a concept of the target
model. On the way it carries the list of concepts it has left; a concept on that list is
not entered again. The concept it stands at is not on the list yet, so a self-loop is
followed once.

Concepts are taken as equal when they are the same object.

## Main definitions

* `findInTarget`, `filterLinksMapConcepts`, `findPathToTarget` — the methods of `Correlation`
* `Heap.LinkedTo` — one concept is the other end of a link stored at the other one

## Main results

* `search_induction` — the induction of the searches
* `findPathToTarget_ne_nil_iff_exists_chain` — the search finds a path exactly when there
  is a chain that avoids the processed concepts
* `findPathToTarget_getLast` — a path ends in the target
* `findPathToTarget_sound_and_complete` — both, and reachability for the whole search
-/

namespace ThinkingUnderstanding

open Math

namespace Heap

variable (heap : Heap)

/-- The ends of all links stored at a concept. -/
def linkEnds : List ConceptRef :=
  (List.range heap.concepts.size).flatMap fun c =>
    (heap.linksOf c).flatMap fun link => [link.source, link.destination]

theorem linksOf_eq_nil_of_size_le {c : ConceptRef} (beyond : heap.concepts.size ≤ c) :
    heap.linksOf c = [] := by
  rw [linksOf, concept_of_size_le beyond]
  rfl

theorem mem_linkEnds {c d : ConceptRef} {link : ConceptLink} (stored : link ∈ heap.linksOf c)
    (isEnd : d = link.source ∨ d = link.destination) : d ∈ heap.linkEnds := by
  refine List.mem_flatMap.mpr ⟨c, List.mem_range.mpr ?_, List.mem_flatMap.mpr ⟨link, stored, ?_⟩⟩
  · by_contra beyond
    rw [heap.linksOf_eq_nil_of_size_le (Nat.le_of_not_lt beyond)] at stored
    cases stored
  · simpa using isEnd

end Heap

namespace Correlation

/-- The end of a link that is not the current concept, as the code takes it. -/
def otherEnd (currentConcept : ConceptRef) (link : ConceptLink) : ConceptRef :=
  if link.source = currentConcept then link.destination else link.source

theorem otherEnd_eq (c : ConceptRef) (link : ConceptLink) :
    otherEnd c link = link.source ∨ otherEnd c link = link.destination := by
  unfold otherEnd
  split_ifs
  · exact Or.inr rfl
  · exact Or.inl rfl

/-- `Correlation.filterLinksMapConcepts`. -/
def filterLinksMapConcepts (links : List ConceptLink) (currentConcept : ConceptRef)
    (processedLinks : List ConceptRef) : List ConceptRef :=
  (links.filter fun link => otherEnd currentConcept link ∉ processedLinks).map
    (otherEnd currentConcept)

theorem mem_filterLinksMapConcepts {links : List ConceptLink} {c d : ConceptRef}
    {processed : List ConceptRef} :
    d ∈ filterLinksMapConcepts links c processed ↔
      (∃ link ∈ links, otherEnd c link = d) ∧ d ∉ processed := by
  simp only [filterLinksMapConcepts, List.mem_map, List.mem_filter, decide_eq_true_eq]
  constructor
  · rintro ⟨link, ⟨stored, outside⟩, rfl⟩
    exact ⟨⟨link, stored, rfl⟩, outside⟩
  · rintro ⟨⟨link, stored, rfl⟩, outside⟩
    exact ⟨link, ⟨stored, outside⟩, rfl⟩

/-- The path made of the mappings found from the linked concepts: those linked concepts
that no mapping contains, the concept itself, and the shortest mapping. -/
def joinMappings (mappingConcept : ConceptRef) (linkedConcepts : List ConceptRef)
    (res : List (List ConceptRef)) : List ConceptRef :=
  match res.filter fun lC => 0 < lC.length with
  | [] => []
  | first :: rest =>
      let foundMappings := first :: rest
      let leaves := linkedConcepts.filter fun c => c ∉ foundMappings.flatten
      let shortestMapping :=
        rest.foldl (fun s1 s2 => if s2.length > s1.length then s1 else s2) first
      leaves ++ [mappingConcept] ++ shortestMapping

theorem foldl_shortest_mem (rest : List (List ConceptRef)) (first : List ConceptRef) :
    rest.foldl (fun s1 s2 => if s2.length > s1.length then s1 else s2) first ∈ first :: rest := by
  induction rest generalizing first with
  | nil => exact List.mem_cons_self
  | cons second rest ih =>
    rw [List.foldl_cons]
    rcases List.mem_cons.mp (ih (if second.length > first.length then first else second)) with
      chosen | later
    · rw [chosen]
      split_ifs
      · exact List.mem_cons_self
      · exact List.mem_cons_of_mem _ List.mem_cons_self
    · exact List.mem_cons_of_mem _ (List.mem_cons_of_mem _ later)

/-- A path is made exactly when some linked concept has a mapping. -/
theorem joinMappings_ne_nil_iff {c : ConceptRef} {linked : List ConceptRef}
    {res : List (List ConceptRef)} :
    joinMappings c linked res ≠ [] ↔ ∃ mapping ∈ res, mapping ≠ [] := by
  have found : (∃ mapping ∈ res, mapping ≠ []) ↔ res.filter (fun lC => 0 < lC.length) ≠ [] := by
    rw [ne_eq, List.filter_eq_nil_iff]
    simp [List.length_pos_iff]
  rw [found]
  unfold joinMappings
  cases res.filter fun lC => 0 < lC.length with
  | nil => simp
  | cons first rest => simp

/-- A path goes from its concept on as one of the mappings it is made of. -/
theorem joinMappings_eq_append {c : ConceptRef} {linked : List ConceptRef}
    {res : List (List ConceptRef)} (found : joinMappings c linked res ≠ []) :
    ∃ leaves mapping, (mapping ∈ res ∧ mapping ≠ []) ∧
      joinMappings c linked res = leaves ++ c :: mapping := by
  unfold joinMappings at found ⊢
  cases mappings : res.filter fun lC => 0 < lC.length with
  | nil =>
    rw [mappings] at found
    exact absurd rfl found
  | cons first rest =>
    have chosen := foldl_shortest_mem rest first
    rw [← mappings, List.mem_filter, decide_eq_true_eq, List.length_pos_iff] at chosen
    exact ⟨_, _, chosen, List.append_assoc _ [c] _⟩

/-- A path ends as one of the mappings it is made of. -/
theorem getLast?_joinMappings {c last : ConceptRef} {linked : List ConceptRef}
    {res : List (List ConceptRef)} (ends : (joinMappings c linked res).getLast? = some last) :
    ∃ mapping ∈ res, mapping.getLast? = some last := by
  have found : joinMappings c linked res ≠ [] := by
    rintro empty
    rw [empty] at ends
    cases ends
  obtain ⟨leaves, mapping, ⟨member, nonempty⟩, split⟩ := joinMappings_eq_append found
  refine ⟨mapping, member, ?_⟩
  rw [split, List.append_cons, List.getLast?_append_of_ne_nil _ nonempty] at ends
  exact ends

variable (heap : Heap)

/-- `Correlation.findInTarget`. -/
def findInTarget (mappingConcept : ConceptRef) (targetModel : ConceptNetwork) :
    Option ConceptRef :=
  if (heap.phrasesOf mappingConcept).size > 0 then
    let res := heap.getNodeByURI targetModel (heap.concept mappingConcept).uri
    if res.length > 0 then some mappingConcept else none
  else none

/-- A bound on the search: the concepts not processed yet count twice, since a concept
can be entered once more from itself. -/
def searchBound (c : ConceptRef) (processed : List ConceptRef) : ℕ :=
  2 * (heap.linkEnds.toFinset \ processed.toFinset).card +
    if c ∈ processed ∨ c ∉ heap.linkEnds then 1 else 0

theorem searchBound_lt {c d : ConceptRef} {processed : List ConceptRef}
    (step : d ∈ filterLinksMapConcepts (heap.linksOf c) c processed) :
    searchBound heap d (processed ++ [c]) < searchBound heap c processed := by
  obtain ⟨⟨link, stored, isEnd⟩, outside⟩ := mem_filterLinksMapConcepts.mp step
  have d_end : d ∈ heap.linkEnds := heap.mem_linkEnds stored (isEnd ▸ otherEnd_eq c link)
  have smaller : heap.linkEnds.toFinset \ (processed ++ [c]).toFinset =
      (heap.linkEnds.toFinset \ processed.toFinset).erase c := by
    ext x
    simp only [List.toFinset_append, Finset.mem_sdiff, Finset.mem_union, List.mem_toFinset,
      List.mem_singleton, Finset.mem_erase]
    tauto
  unfold searchBound
  rw [smaller]
  by_cases entered : c ∈ processed ∨ c ∉ heap.linkEnds
  · -- `c` is counted already, and `d` is another concept
    have same : (heap.linkEnds.toFinset \ processed.toFinset).erase c =
        heap.linkEnds.toFinset \ processed.toFinset := by
      refine Finset.erase_eq_of_notMem ?_
      simp only [Finset.mem_sdiff, List.mem_toFinset]
      tauto
    have other : d ≠ c := by
      rintro rfl
      rcases entered with inside | unknown
      · exact outside inside
      · exact unknown d_end
    have new : ¬ (d ∈ processed ++ [c] ∨ d ∉ heap.linkEnds) := by
      simp only [List.mem_append, List.mem_singleton]
      tauto
    rw [same, if_neg new, if_pos entered]
    omega
  · -- `c` is counted from now on
    have present : c ∈ heap.linkEnds.toFinset \ processed.toFinset := by
      simp only [Finset.mem_sdiff, List.mem_toFinset]
      tauto
    have dropped := Finset.card_erase_lt_of_mem present
    rw [if_neg entered]
    split_ifs
    · omega
    · omega

/-- `Correlation.findPathToTarget`. -/
def findPathToTarget (mappingConcept : ConceptRef) (targetModel : ConceptNetwork)
    (processedConcepts : List ConceptRef) : List ConceptRef :=
  match findInTarget heap mappingConcept targetModel with
  | some c => [c]
  | none =>
      if (heap.linksOf mappingConcept).length > 0 then
        let linkedConcepts :=
          filterLinksMapConcepts (heap.linksOf mappingConcept) mappingConcept processedConcepts
        joinMappings mappingConcept linkedConcepts
          (linkedConcepts.attach.map fun c =>
            findPathToTarget c.1 targetModel (processedConcepts ++ [mappingConcept]))
      else []
termination_by searchBound heap mappingConcept processedConcepts
decreasing_by exact searchBound_lt heap c.2

end Correlation

/-- The concept `d` is the other end of a link stored at `c`. -/
def Heap.LinkedTo (heap : Heap) (c d : ConceptRef) : Prop :=
  ∃ link ∈ heap.linksOf c, Correlation.otherEnd c link = d

namespace Correlation

variable (heap : Heap) {c : ConceptRef} {targetModel : ConceptNetwork}
  {processed : List ConceptRef}

/-- The induction of the searches: a concept in the target, and one outside, from which they go
on at the linked concepts that are not processed yet. -/
@[elab_as_elim]
theorem search_induction (targetModel : ConceptNetwork)
    {motive : List ConceptRef → ConceptRef → Prop}
    (inTarget : ∀ processed c, (findInTarget heap c targetModel).isSome → motive processed c)
    (notInTarget : ∀ processed c, findInTarget heap c targetModel = none →
      (∀ d ∈ filterLinksMapConcepts (heap.linksOf c) c processed, motive (processed ++ [c]) d) →
        motive processed c)
    (processed : List ConceptRef) (c : ConceptRef) : motive processed c := by
  -- each step lowers the bound on the concepts still open
  induction bound : searchBound heap c processed using Nat.strong_induction_on
    generalizing c processed with
  | _ bound ih =>
    subst bound
    by_cases inside : (findInTarget heap c targetModel).isSome
    · exact inTarget processed c inside
    · refine notInTarget processed c (Option.not_isSome_iff_eq_none.mp inside) fun d step => ?_
      exact ih _ (searchBound_lt heap step) _ _ rfl

/-- A concept in the target is returned as it is. -/
theorem findInTarget_eq_self {d : ConceptRef}
    (found : findInTarget heap c targetModel = some d) : d = c := by
  simp only [findInTarget] at found
  split_ifs at found
  exact (Option.some.inj found).symm

theorem findPathToTarget_of_inTarget (inside : (findInTarget heap c targetModel).isSome) :
    findPathToTarget heap c targetModel processed = [c] := by
  obtain ⟨d, found⟩ := Option.isSome_iff_exists.mp inside
  rw [findPathToTarget, found, findInTarget_eq_self heap found]

/-- Outside the target the search goes on at every linked concept not processed yet. -/
theorem findPathToTarget_of_notInTarget (outside : findInTarget heap c targetModel = none) :
    findPathToTarget heap c targetModel processed =
      joinMappings c (filterLinksMapConcepts (heap.linksOf c) c processed)
        ((filterLinksMapConcepts (heap.linksOf c) c processed).map fun d =>
          findPathToTarget heap d targetModel (processed ++ [c])) := by
  rw [findPathToTarget, outside]
  simp only [List.map_attach_eq_pmap, List.pmap_eq_map]
  split_ifs with linked
  · rfl
  · have none : heap.linksOf c = [] := List.length_eq_zero_iff.mp (Nat.eq_zero_of_not_pos linked)
    rw [none]
    rfl

theorem findPathToTarget_ne_nil_iff (outside : findInTarget heap c targetModel = none) :
    findPathToTarget heap c targetModel processed ≠ [] ↔
      ∃ d, heap.LinkedTo c d ∧ d ∉ processed ∧
        findPathToTarget heap d targetModel (processed ++ [c]) ≠ [] := by
  rw [findPathToTarget_of_notInTarget heap outside, joinMappings_ne_nil_iff]
  constructor
  · rintro ⟨_, member, found⟩
    obtain ⟨d, step, rfl⟩ := List.mem_map.mp member
    obtain ⟨linked, fresh⟩ := mem_filterLinksMapConcepts.mp step
    exact ⟨d, linked, fresh, found⟩
  · rintro ⟨d, linked, fresh, found⟩
    exact ⟨_, List.mem_map_of_mem (mem_filterLinksMapConcepts.mpr ⟨linked, fresh⟩), found⟩

/-- Soundness and completeness against chains. Soundness is an induction on the search,
completeness one on the chain. -/
theorem findPathToTarget_ne_nil_iff_exists_chain :
    findPathToTarget heap c targetModel processed ≠ [] ↔
      ∃ rest, FreshChain heap.LinkedTo processed (c :: rest) ∧
        ∃ last, (c :: rest).getLast? = some last ∧
          (findInTarget heap last targetModel).isSome := by
  constructor
  · -- from a search to a chain by the recursion of the search
    induction processed, c using search_induction heap targetModel with
    | inTarget processed c inside =>
      exact fun _ => ⟨[], freshChain_singleton c, c, rfl, inside⟩
    | notInTarget processed c outside ih =>
      intro found
      obtain ⟨d, linked, fresh, later⟩ := (findPathToTarget_ne_nil_iff heap outside).mp found
      obtain ⟨rest, chain, last, ends, target⟩ :=
        ih d (mem_filterLinksMapConcepts.mpr ⟨linked, fresh⟩) later
      exact ⟨d :: rest, freshChain_cons_cons_iff.mpr ⟨linked, fresh, chain⟩, last, ends, target⟩
  · rintro ⟨rest, chain, last, ends, target⟩
    -- and from a chain to a search by the chain
    induction rest generalizing c processed with
    | nil =>
      obtain rfl : c = last := Option.some.inj ends
      rw [findPathToTarget_of_inTarget heap target]
      exact List.cons_ne_nil c []
    | cons d rest ih =>
      obtain ⟨linked, fresh, chain⟩ := freshChain_cons_cons_iff.mp chain
      by_cases inside : (findInTarget heap c targetModel).isSome
      · rw [findPathToTarget_of_inTarget heap inside]
        exact List.cons_ne_nil c []
      · have outside := Option.not_isSome_iff_eq_none.mp inside
        exact (findPathToTarget_ne_nil_iff heap outside).mpr ⟨d, linked, fresh, ih chain ends⟩

/-- A path ends in the target. -/
theorem findPathToTarget_getLast {last : ConceptRef}
    (ends : (findPathToTarget heap c targetModel processed).getLast? = some last) :
    (findInTarget heap last targetModel).isSome := by
  induction processed, c using search_induction heap targetModel with
  | inTarget processed c inside =>
    rw [findPathToTarget_of_inTarget heap inside] at ends
    obtain rfl : c = last := Option.some.inj ends
    exact inside
  | notInTarget processed c outside ih =>
    rw [findPathToTarget_of_notInTarget heap outside] at ends
    obtain ⟨_, member, later⟩ := getLast?_joinMappings ends
    obtain ⟨d, step, rfl⟩ := List.mem_map.mp member
    exact ih d step later

/-- Without processed concepts the search finds a path exactly when a concept of the
target can be reached at all. -/
theorem findPathToTarget_nil_ne_nil_iff :
    findPathToTarget heap c targetModel [] ≠ [] ↔
      ∃ d, Relation.ReflTransGen heap.LinkedTo c d ∧
        (findInTarget heap d targetModel).isSome := by
  rw [findPathToTarget_ne_nil_iff_exists_chain]
  constructor
  · rintro ⟨rest, chain, last, ends, target⟩
    exact ⟨last, chain.reflTransGen ends, target⟩
  · rintro ⟨d, reach, target⟩
    obtain ⟨rest, chain, ends⟩ := exists_freshChain_of_reflTransGen reach
    exact ⟨rest, chain, d, ends, target⟩

/-- The search is sound and complete: it finds a path exactly when a chain of linked
concepts that avoids the processed ones and its own earlier ones leads into the target;
what it finds ends in the target; and from the start it finds a path exactly when a
concept of the target can be reached. -/
theorem findPathToTarget_sound_and_complete (c : ConceptRef) (targetModel : ConceptNetwork)
    (processed : List ConceptRef) :
    (findPathToTarget heap c targetModel processed ≠ [] ↔
      ∃ rest, FreshChain heap.LinkedTo processed (c :: rest) ∧
        ∃ last, (c :: rest).getLast? = some last ∧
          (findInTarget heap last targetModel).isSome) ∧
    (∀ last, (findPathToTarget heap c targetModel processed).getLast? = some last →
      (findInTarget heap last targetModel).isSome) ∧
    (findPathToTarget heap c targetModel [] ≠ [] ↔
      ∃ d, Relation.ReflTransGen heap.LinkedTo c d ∧
        (findInTarget heap d targetModel).isSome) :=
  ⟨findPathToTarget_ne_nil_iff_exists_chain heap, fun _ => findPathToTarget_getLast heap,
    findPathToTarget_nil_ne_nil_iff heap⟩

end Correlation

end ThinkingUnderstanding
