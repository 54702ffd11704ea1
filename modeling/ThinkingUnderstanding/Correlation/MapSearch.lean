import ThinkingUnderstanding.Correlation.PathSearch
import ThinkingUnderstanding.Math.LightestRoute

/-!
# The search for a map to the target model

`Correlation.findMapToTarget` goes through the same concepts as `findPathToTarget`. Where
it cannot go on it returns the concept it stands at, so that every search from a linked
concept counts as found, and the shortest one is taken whether it leads into the target or
not. `findPathToTarget` returns nothing there. The two agree when no dead end comes before
the routes into the target.

## Main definitions

* `filterLinks`, `filterLinksConcepts`, `findMapToTarget` — the methods of `Correlation`
* `IsEnd`, `OpenRoute` — the routes of both searches, into the target or to a dead end
* `SearchesAgree` — one search ends in the target exactly when the other finds a path

## Main results

* `lightest_findMapToTarget` — a map follows the shortest route, the last one of those
* `findPathToTarget_ne_nil_iff_exists_route` — a path is found when a route leads into the
  target
* `searchesAgree_iff` — when the searches agree
-/

namespace ThinkingUnderstanding.Correlation

open Math

/-- `Correlation.filterLinks`. -/
def filterLinks (links : List ConceptLink) (currentConcept : ConceptRef)
    (processedLinks : List ConceptRef) : List ConceptLink :=
  links.filter fun link =>
    if link.source = currentConcept then link.destination ∉ processedLinks
    else link.source ∉ processedLinks

/-- `Correlation.filterLinksConcepts`. -/
def filterLinksConcepts (links : List ConceptLink) (currentConcept : ConceptRef) :
    List ConceptRef :=
  links.map fun link =>
    if link.source = currentConcept then link.destination else link.source

/-- The two steps together are the one of `findPathToTarget`. -/
theorem filterLinksConcepts_filterLinks (links : List ConceptLink) (c : ConceptRef)
    (processed : List ConceptRef) :
    filterLinksConcepts (filterLinks links c processed) c =
      filterLinksMapConcepts links c processed := by
  have same : filterLinks links c processed =
      links.filter fun link => otherEnd c link ∉ processed := by
    unfold filterLinks otherEnd
    congr 1
    funext link
    split_ifs
    · rfl
    · rfl
  rw [filterLinksMapConcepts, ← same]
  rfl

/-- The map made of the mappings found from the linked concepts: the concept itself and
the shortest mapping, if there is one. -/
def extendMapping (mappingConcept : ConceptRef) (res : List (List ConceptRef)) :
    List ConceptRef :=
  match res.filter fun lC => 0 < lC.length with
  | first :: rest =>
      let shortestMapping :=
        rest.foldl (fun s1 s2 => if s2.length > s1.length then s1 else s2) first
      [mappingConcept] ++ shortestMapping
  | [] => [mappingConcept]

variable (heap : Heap)

/-- `Correlation.findMapToTarget`. -/
def findMapToTarget (mappingConcept : ConceptRef) (targetModel : ConceptNetwork)
    (processedConcepts : List ConceptRef) : List ConceptRef :=
  match findInTarget heap mappingConcept targetModel with
  | some c => [c]
  | none =>
      if (heap.linksOf mappingConcept).length > 0 then
        let filteredLinks :=
          filterLinks (heap.linksOf mappingConcept) mappingConcept processedConcepts
        let intermediateConcepts := filterLinksConcepts filteredLinks mappingConcept
        extendMapping mappingConcept
          (intermediateConcepts.attach.map fun c =>
            findMapToTarget c.1 targetModel (processedConcepts ++ [mappingConcept]))
      else [mappingConcept]
termination_by searchBound heap mappingConcept processedConcepts
decreasing_by exact searchBound_lt heap (filterLinksConcepts_filterLinks _ _ _ ▸ c.2)

/-- The concepts that a search can go on to. -/
def opened (processed : List ConceptRef) (c : ConceptRef) : List ConceptRef :=
  filterLinksMapConcepts (heap.linksOf c) c processed

variable (targetModel : ConceptNetwork)

/-- A search ends in the target, and where it can't go on. -/
def IsEnd (processed : List ConceptRef) (c : ConceptRef) : Prop :=
  (findInTarget heap c targetModel).isSome ∨ opened heap processed c = []

instance (processed : List ConceptRef) (c : ConceptRef) :
    Decidable (IsEnd heap targetModel processed c) := instDecidableOr

/-- A route of the searches to the target or to a dead end, by the positions of the links
it takes among those that can be taken, and by its concepts. -/
abbrev OpenRoute : List ConceptRef → ConceptRef → List ℕ → List ConceptRef → Prop :=
  Route (opened heap) (IsEnd heap targetModel)

/-- A list ends in a concept of the target. -/
def EndsInTarget (path : List ConceptRef) : Prop :=
  ∃ last, path.getLast? = some last ∧ (findInTarget heap last targetModel).isSome

/-- The map ends in the target exactly when there is a path. -/
def SearchesAgree (c : ConceptRef) (processed : List ConceptRef) : Prop :=
  EndsInTarget heap targetModel (findMapToTarget heap c targetModel processed) ↔
    findPathToTarget heap c targetModel processed ≠ []

variable {heap targetModel} {c d : ConceptRef} {processed : List ConceptRef}
  {positions : List ℕ} {route : List ConceptRef}

theorem searchBound_lt_of_opened (step : d ∈ opened heap processed c) :
    searchBound heap d (processed ++ [c]) < searchBound heap c processed :=
  searchBound_lt heap step

theorem findMapToTarget_of_inTarget (inside : (findInTarget heap c targetModel).isSome) :
    findMapToTarget heap c targetModel processed = [c] := by
  obtain ⟨d, found⟩ := Option.isSome_iff_exists.mp inside
  rw [findMapToTarget, found, findInTarget_eq_self heap found]

theorem findMapToTarget_of_notInTarget (outside : findInTarget heap c targetModel = none) :
    findMapToTarget heap c targetModel processed =
      extendMapping c ((opened heap processed c).map fun d =>
        findMapToTarget heap d targetModel (processed ++ [c])) := by
  rw [findMapToTarget, outside]
  simp only [List.map_attach_eq_pmap, List.pmap_eq_map, filterLinksConcepts_filterLinks]
  split_ifs with linked
  · rfl
  · have none : heap.linksOf c = [] := List.length_eq_zero_iff.mp (Nat.eq_zero_of_not_pos linked)
    rw [opened, none]
    rfl

/-- A map is never empty. -/
theorem findMapToTarget_ne_nil (heap : Heap) (targetModel : ConceptNetwork)
    (processed : List ConceptRef) (c : ConceptRef) :
    findMapToTarget heap c targetModel processed ≠ [] := by
  cases inside : findInTarget heap c targetModel with
  | some d =>
    rw [findMapToTarget_of_inTarget (Option.isSome_of_eq_some inside)]
    exact List.cons_ne_nil c []
  | none =>
    rw [findMapToTarget_of_notInTarget inside]
    unfold extendMapping
    split
    · exact List.cons_ne_nil c _
    · exact List.cons_ne_nil c []

/-- Of the mappings found the last of the shortest ones is taken. -/
theorem exists_split_extendMapping {search : ConceptRef → List ConceptRef}
    (found : ∀ d, search d ≠ []) (c first : ConceptRef) (rest : List ConceptRef) :
    ∃ before d after, first :: rest = before ++ d :: after ∧
      extendMapping c ((first :: rest).map search) = c :: search d ∧
      (∀ e ∈ before, (search d).length ≤ (search e).length) ∧
      ∀ e ∈ after, (search d).length < (search e).length := by
  have all : (((first :: rest).map search).filter fun lC => 0 < lC.length) =
      search first :: rest.map search := by
    rw [List.filter_eq_self.mpr, List.map_cons]
    intro lC member
    obtain ⟨d, -, rfl⟩ := List.mem_map.mp member
    exact decide_eq_true (List.length_pos_iff.mpr (found d))
  obtain ⟨before, d, after, split, -, chosen, le, lt⟩ := exists_split_shortest all
  refine ⟨before, d, after, split, ?_, fun e member => le e member (found e),
    fun e member => lt e member (found e)⟩
  rw [extendMapping, all, ← chosen]
  rfl

/-- A map consists of the concepts of the shortest route, and of the one through the later
links if there are several. -/
theorem lightest_findMapToTarget (heap : Heap) (targetModel : ConceptNetwork) (c : ConceptRef)
    (processed : List ConceptRef) :
    ∃ positions, Lightest (opened heap) (IsEnd heap targetModel) (fun _ _ => 1) processed c
      positions (findMapToTarget heap c targetModel processed) := by
  induction processed, c using search_induction heap targetModel with
  | inTarget processed c inside =>
    rw [findMapToTarget_of_inTarget inside]
    exact ⟨[], .arrived (Or.inl inside)⟩
  | notInTarget processed c outside ih =>
    rw [findMapToTarget_of_notInTarget outside]
    cases linked : opened heap processed c with
    | nil => exact ⟨[], .arrived (Or.inr linked)⟩
    | cons first rest =>
      have away : ¬ IsEnd heap targetModel processed c := by
        rintro (there | stuck)
        · exact Option.not_isSome_iff_eq_none.mpr outside there
        · rw [linked] at stuck
          cases stuck
      obtain ⟨before, d, after, split, map, le, lt⟩ :=
        exists_split_extendMapping
          (findMapToTarget_ne_nil heap targetModel (processed ++ [c]))
          c first rest
      have searched : ∀ e ∈ before ++ d :: after, ∃ positions,
          Lightest (opened heap) (IsEnd heap targetModel) (fun _ _ => 1) (processed ++ [c]) e
            positions (findMapToTarget heap e targetModel (processed ++ [c])) := by
        intro e member
        rw [← split, ← linked] at member
        exact ih e member
      -- no route from a linked concept is shorter than the map found from it
      have shortest : ∀ e ∈ before ++ d :: after, ∀ positions' nodes',
          OpenRoute heap targetModel (processed ++ [c]) e positions' nodes' →
            (findMapToTarget heap e targetModel (processed ++ [c])).length ≤ nodes'.length := by
        intro e member positions' nodes' route
        obtain ⟨_, best⟩ := searched e member
        have preferred := best.preferred _ _ route
        rw [routeWeight_one, routeWeight_one] at preferred
        rcases preferred with shorter | ⟨same, -⟩
        · exact shorter.le
        · exact same.le
      obtain ⟨positions, best⟩ := searched d (List.mem_append_right _ List.mem_cons_self)
      rw [map]
      refine ⟨_, best.step away (linked.trans split) ?_ ?_⟩
      · intro e member positions' nodes' route
        rw [routeWeight_one, routeWeight_one]
        exact (le e member).trans (shortest e (List.mem_append_left _ member) _ _ route)
      · intro e member positions' nodes' route
        rw [routeWeight_one, routeWeight_one]
        exact (lt e member).trans_le (shortest e
          (List.mem_append_right _ (List.mem_cons_of_mem _ member)) _ _ route)

theorem endsInTarget_cons (further : route ≠ []) :
    EndsInTarget heap targetModel (c :: route) ↔ EndsInTarget heap targetModel route := by
  cases route with
  | nil => exact absurd rfl further
  | cons d route => rw [EndsInTarget, EndsInTarget, List.getLast?_cons_cons]

theorem endsInTarget_singleton :
    EndsInTarget heap targetModel [c] ↔ (findInTarget heap c targetModel).isSome := by
  constructor
  · rintro ⟨last, ends, inside⟩
    obtain rfl : c = last := Option.some.inj ends
    exact inside
  · intro inside
    exact ⟨c, rfl, inside⟩

/-- A path is found exactly when a route leads into the target. -/
theorem findPathToTarget_ne_nil_iff_exists_route :
    findPathToTarget heap c targetModel processed ≠ [] ↔
      ∃ positions route, OpenRoute heap targetModel processed c positions route ∧
        EndsInTarget heap targetModel route := by
  induction processed, c using search_induction heap targetModel with
  | inTarget processed c inside =>
    rw [findPathToTarget_of_inTarget heap inside]
    exact iff_of_true (List.cons_ne_nil c [])
      ⟨[], [c], .arrived (Or.inl inside), endsInTarget_singleton.mpr inside⟩
  | notInTarget processed c outside ih =>
    have away := Option.not_isSome_iff_eq_none.mpr outside
    rw [findPathToTarget_ne_nil_iff heap outside]
    constructor
    · rintro ⟨d, linked, fresh, found⟩
      have step : d ∈ opened heap processed c := mem_filterLinksMapConcepts.mpr ⟨linked, fresh⟩
      obtain ⟨positions, route, further, ends⟩ := (ih d step).mp found
      obtain ⟨i, there⟩ := List.getElem?_of_mem step
      -- a concept from which the search goes on is no end of a route
      have goes : ¬ IsEnd heap targetModel processed c := by
        rintro (there | stuck)
        · exact away there
        · rw [stuck] at step
          cases step
      exact ⟨i :: positions, c :: route, .step goes there further,
        (endsInTarget_cons further.ne_nil).mpr ends⟩
    · rintro ⟨positions, route, routed, ends⟩
      cases routed with
      | arrived _ => exact absurd (endsInTarget_singleton.mp ends) away
      | @step _ _ d _ positions route _ there further =>
        have step := List.mem_of_getElem? there
        obtain ⟨linked, fresh⟩ := mem_filterLinksMapConcepts.mp step
        refine ⟨d, linked, fresh, (ih d step).mpr ?_⟩
        exact ⟨positions, route, further, (endsInTarget_cons further.ne_nil).mp ends⟩

/-- The searches agree exactly when, if any route leads into the target, one that does is
preferred to all that end elsewhere: it is shorter, or as long and through later links. -/
theorem searchesAgree_iff (heap : Heap) (targetModel : ConceptNetwork) (c : ConceptRef)
    (processed : List ConceptRef) :
    SearchesAgree heap targetModel c processed ↔
      ((∃ positions route, OpenRoute heap targetModel processed c positions route ∧
          EndsInTarget heap targetModel route) →
        ∃ positions route, OpenRoute heap targetModel processed c positions route ∧
          EndsInTarget heap targetModel route ∧
          ∀ positions' route', OpenRoute heap targetModel processed c positions' route' →
            ¬ EndsInTarget heap targetModel route' →
              Preferred route.length positions route'.length positions') := by
  obtain ⟨first, best⟩ := lightest_findMapToTarget heap targetModel c processed
  have preferred : ∀ positions route, OpenRoute heap targetModel processed c positions route →
      Preferred (findMapToTarget heap c targetModel processed).length first route.length
        positions := by
    intro positions route routed
    have := best.preferred _ _ routed
    rwa [routeWeight_one, routeWeight_one] at this
  rw [SearchesAgree, findPathToTarget_ne_nil_iff_exists_route]
  constructor
  · intro agree leads
    exact ⟨first, _, best.route, agree.mpr leads, fun positions route routed _ =>
      preferred positions route routed⟩
  · intro outweighs
    refine ⟨fun ends => ⟨first, _, best.route, ends⟩, fun leads => ?_⟩
    obtain ⟨positions, route, routed, ends, unlike⟩ := outweighs leads
    by_contra elsewhere
    -- the map would be before that route and after it
    obtain rfl := (preferred _ _ routed).antisymm (unlike _ _ best.route elsewhere)
    rw [best.route.nodes_unique routed] at elsewhere
    exact elsewhere ends

/-- A concept with a dead end next to it, and a target two links away. -/
def deadEndNearby : Heap where
  uris := .ofList [{ name := "browser" }, { name := "window" }, { name := "user" },
    { name := "computer" }, { name := "computerPhrase" }]
  concepts := .ofList [
    { uri := 0, conceptLinks := [0, 1] },
    { uri := 1, conceptLinks := [0] },
    { uri := 2, conceptLinks := [1, 2] },
    { uri := 3, conceptLinks := [2], phrases := some 0 }]
  phraseLines := .ofList [{ frames := .ofList [(4, 0)] }]
  phrases := .ofList [{ uri := 4, text := "computer" }]
  links := .ofList [{ source := 0, destination := 1 }, { source := 0, destination := 2 },
    { source := 2, destination := 3 }]

/-- The path is found, and the map ends at the dead end. -/
theorem deadEndNearby_searches_disagree :
    ¬ SearchesAgree deadEndNearby { nodes := [3] } 0 [] := by
  have map : findMapToTarget deadEndNearby 0 { nodes := [3] } [] = [0, 1] := by
    -- the neighbour that comes first is a dead end, and the map search takes it
    have window : findMapToTarget deadEndNearby 1 { nodes := [3] } [0] = [1] := by
      rw [findMapToTarget_of_notInTarget rfl]
      rfl
    have computer : findMapToTarget deadEndNearby 3 { nodes := [3] } [0, 2] = [3] :=
      findMapToTarget_of_inTarget rfl
    have user : findMapToTarget deadEndNearby 2 { nodes := [3] } [0] = [2, 3] := by
      have linked : opened deadEndNearby [0] 2 = [3] := rfl
      rw [findMapToTarget_of_notInTarget rfl, linked, List.map_singleton, List.singleton_append,
        computer]
      rfl
    have linked : opened deadEndNearby [] 0 = [1, 2] := rfl
    rw [findMapToTarget_of_notInTarget rfl, linked, List.map_cons, List.map_singleton,
      List.nil_append, window, user]
    rfl
  have path : findPathToTarget deadEndNearby 0 { nodes := [3] } [] ≠ [] :=
    findPathToTarget_ne_nil_iff_exists_route.mpr ⟨[1, 0], [0, 2, 3],
      .step (by decide) rfl (.step (by decide) rfl (.arrived (Or.inl rfl))), 3, rfl, rfl⟩
  intro agree
  obtain ⟨last, ends, inside⟩ := agree.mpr path
  rw [map] at ends
  obtain rfl : 1 = last := Option.some.inj ends
  cases inside

end ThinkingUnderstanding.Correlation
