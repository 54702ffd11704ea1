import ThinkingUnderstanding.Correlation.MapSearch

/-!
# The route of a path

The list `Correlation.findPathToTarget` returns holds more than a route into the target:
before each concept it goes through it puts the linked concepts that are in none of the
paths found from there, the side leaves. The shortest of these lists is taken at every
concept, with the leaves counted. So the route is the lightest one, if a concept weighs as
much as the leaves before it and itself, and it is a shortest one only when a shortest
route comes before all longer ones in that order.

## Main definitions

* `PathItem`, `markPathToTarget`, `routeToTarget` — the search with its side leaves marked,
  and the list without them
* `TargetRoute`, `listing`, `Weighing` — the routes into the target, what is listed for one,
  and which concepts stand beside those of a route
* `RouteShortest` — the list follows a shortest chain of links into the target

## Main results

* `map_concept_markPathToTarget` — the marks aside, the list is the one of the search
* `lightest_routeToTarget` — the route is the lightest one
* `Weighing.unique`, `weighing_sideLeaves` — the side leaves are the one way to weigh
* `routeShortest_iff` — when the route is shortest
-/

namespace ThinkingUnderstanding.Correlation

open Math

/-- A concept in the list of a path: a side leaf, or a concept the path goes through. -/
inductive PathItem
  | leaf (c : ConceptRef)
  | through (c : ConceptRef)
  deriving DecidableEq, Repr

namespace PathItem

/-- The concept, whether it is a leaf or not. -/
def concept : PathItem → ConceptRef
  | leaf c => c
  | through c => c

/-- The concept, unless it is a leaf. -/
def onRoute : PathItem → Option ConceptRef
  | leaf _ => none
  | through c => some c

end PathItem

/-- `joinMappings`, with the leaves marked. -/
def joinMarked (mappingConcept : ConceptRef) (linkedConcepts : List ConceptRef)
    (res : List (List PathItem)) : List PathItem :=
  match res.filter fun lC => 0 < lC.length with
  | [] => []
  | first :: rest =>
      let foundMappings := first :: rest
      let leaves :=
        linkedConcepts.filter fun c => c ∉ foundMappings.flatten.map PathItem.concept
      let shortestMapping :=
        rest.foldl (fun s1 s2 => if s2.length > s1.length then s1 else s2) first
      leaves.map .leaf ++ [.through mappingConcept] ++ shortestMapping

variable (heap : Heap)

/-- `Correlation.findPathToTarget`, with the leaves marked. -/
def markPathToTarget (mappingConcept : ConceptRef) (targetModel : ConceptNetwork)
    (processedConcepts : List ConceptRef) : List PathItem :=
  match findInTarget heap mappingConcept targetModel with
  | some c => [.through c]
  | none =>
      if (heap.linksOf mappingConcept).length > 0 then
        let linkedConcepts :=
          filterLinksMapConcepts (heap.linksOf mappingConcept) mappingConcept processedConcepts
        joinMarked mappingConcept linkedConcepts
          (linkedConcepts.attach.map fun c =>
            markPathToTarget c.1 targetModel (processedConcepts ++ [mappingConcept]))
      else []
termination_by searchBound heap mappingConcept processedConcepts
decreasing_by exact searchBound_lt heap c.2

variable (targetModel : ConceptNetwork)

/-- The list of the path without the side leaves put before each expanded concept. -/
def routeToTarget (processed : List ConceptRef) (c : ConceptRef) : List ConceptRef :=
  (markPathToTarget heap c targetModel processed).filterMap PathItem.onRoute

/-- The list of the path follows a chain of links from the concept to its last element,
and no chain into the target is shorter. -/
structure RouteShortest (c : ConceptRef) : Prop where
  starts : ∃ rest, routeToTarget heap targetModel [] c = c :: rest
  linked : (routeToTarget heap targetModel [] c).IsChain heap.LinkedTo
  ends : (routeToTarget heap targetModel [] c).getLast? =
    (findPathToTarget heap c targetModel []).getLast?
  shortest : ∀ chain, (c :: chain).IsChain heap.LinkedTo →
    EndsInTarget heap targetModel (c :: chain) →
      (routeToTarget heap targetModel [] c).length ≤ (c :: chain).length

/-- A route into the target. -/
abbrev TargetRoute : List ConceptRef → ConceptRef → List ℕ → List ConceptRef → Prop :=
  Route (opened heap) fun _ c => (findInTarget heap c targetModel).isSome

/-- What is listed for a route: each concept with those that stand beside it before it. -/
def listing (sides : List ConceptRef → ConceptRef → List ConceptRef) :
    List ConceptRef → List ConceptRef → List ConceptRef
  | _, [] => []
  | _, [c] => [c]
  | processed, c :: d :: route =>
      sides processed c ++ c :: listing sides (processed ++ [c]) (d :: route)

/-- A concept on a route weighs as much as there are concepts beside it, and itself. -/
def sideWeight (sides : List ConceptRef → ConceptRef → List ConceptRef)
    (processed : List ConceptRef) (c : ConceptRef) : ℕ :=
  (sides processed c).length + 1

/-- The lightest route into the target. -/
abbrev LightestRoute (sides : List ConceptRef → ConceptRef → List ConceptRef) :
    List ConceptRef → ConceptRef → List ℕ → List ConceptRef → Prop :=
  Lightest (opened heap) (fun _ c => (findInTarget heap c targetModel).isSome)
    (sideWeight sides)

open scoped Classical in
/-- Beside a concept stand the concepts open there that are listed for the lightest route
from none of them. -/
def Weighing (sides : List ConceptRef → ConceptRef → List ConceptRef) : Prop :=
  ∀ processed c, sides processed c =
    (opened heap processed c).filter fun e =>
      ∀ d ∈ opened heap processed c, ∀ positions route,
        LightestRoute heap targetModel sides (processed ++ [c]) d positions route →
          e ∉ listing sides (processed ++ [c]) route

/-- The side leaves of a concept, as the search collects them. -/
def sideLeaves (processed : List ConceptRef) (c : ConceptRef) : List ConceptRef :=
  (opened heap processed c).filter fun e =>
    e ∉ ((opened heap processed c).map fun d =>
      findPathToTarget heap d targetModel (processed ++ [c])).flatten

variable {heap targetModel} {c d : ConceptRef} {processed : List ConceptRef}
  {positions : List ℕ} {route : List ConceptRef}
  {sides sides' : List ConceptRef → ConceptRef → List ConceptRef}

/-! ## The marks -/

theorem foldl_map_shortest (rest : List (List PathItem)) (first : List PathItem) :
    (rest.map (List.map PathItem.concept)).foldl
        (fun s1 s2 => if s2.length > s1.length then s1 else s2) (first.map PathItem.concept) =
      (rest.foldl (fun s1 s2 => if s2.length > s1.length then s1 else s2) first).map
        PathItem.concept := by
  induction rest generalizing first with
  | nil => rfl
  | cons second rest ih =>
    rw [List.map_cons, List.foldl_cons, List.foldl_cons, ← ih]
    simp only [List.length_map]
    split_ifs
    · rfl
    · rfl

theorem map_concept_joinMarked (c : ConceptRef) (linked : List ConceptRef)
    (res : List (List PathItem)) :
    (joinMarked c linked res).map PathItem.concept =
      joinMappings c linked (res.map (List.map PathItem.concept)) := by
  have same : (res.map (List.map PathItem.concept)).filter (fun lC => 0 < lC.length) =
      (res.filter fun lC => 0 < lC.length).map (List.map PathItem.concept) := by
    rw [List.filter_map]
    simp only [Function.comp_def, List.length_map]
  unfold joinMarked joinMappings
  rw [same]
  cases res.filter fun lC => 0 < lC.length with
  | nil => rfl
  | cons first rest =>
    simp only [List.map_cons, foldl_map_shortest]
    simp [Function.comp_def, PathItem.concept]

theorem markPathToTarget_of_inTarget (inside : (findInTarget heap c targetModel).isSome) :
    markPathToTarget heap c targetModel processed = [.through c] := by
  obtain ⟨d, found⟩ := Option.isSome_iff_exists.mp inside
  rw [markPathToTarget, found, findInTarget_eq_self heap found]

theorem markPathToTarget_of_notInTarget (outside : findInTarget heap c targetModel = none) :
    markPathToTarget heap c targetModel processed =
      joinMarked c (opened heap processed c) ((opened heap processed c).map fun d =>
        markPathToTarget heap d targetModel (processed ++ [c])) := by
  rw [markPathToTarget, outside]
  simp only [List.map_attach_eq_pmap, List.pmap_eq_map]
  split_ifs with linked
  · rfl
  · have none : heap.linksOf c = [] := List.length_eq_zero_iff.mp (Nat.eq_zero_of_not_pos linked)
    rw [opened, none]
    rfl

/-- Without the marks the list is the one of the search. -/
theorem map_concept_markPathToTarget :
    (markPathToTarget heap c targetModel processed).map PathItem.concept =
      findPathToTarget heap c targetModel processed := by
  induction processed, c using search_induction heap targetModel with
  | inTarget processed c inside =>
    rw [markPathToTarget_of_inTarget inside, findPathToTarget_of_inTarget heap inside]
    rfl
  | notInTarget processed c outside ih =>
    rw [markPathToTarget_of_notInTarget outside, findPathToTarget_of_notInTarget heap outside,
      map_concept_joinMarked, List.map_map]
    exact congrArg (joinMappings c _) (List.map_congr_left fun d step => ih d step)

theorem length_markPathToTarget :
    (markPathToTarget heap c targetModel processed).length =
      (findPathToTarget heap c targetModel processed).length := by
  rw [← map_concept_markPathToTarget, List.length_map]

theorem markPathToTarget_ne_nil_iff :
    markPathToTarget heap c targetModel processed ≠ [] ↔
      findPathToTarget heap c targetModel processed ≠ [] := by
  rw [← map_concept_markPathToTarget, ne_eq, ne_eq, List.map_eq_nil_iff]

/-! ## The lightest route -/

/-- A route into the target is one of the routes of the searches that ends there. -/
theorem targetRoute_iff :
    TargetRoute heap targetModel processed c positions route ↔
      OpenRoute heap targetModel processed c positions route ∧
        EndsInTarget heap targetModel route := by
  constructor
  · intro routed
    induction routed with
    | arrived here => exact ⟨.arrived (Or.inl here), endsInTarget_singleton.mpr here⟩
    | @step processed c d _ _ _ away opened further ih =>
      have open_ : ¬ IsEnd heap targetModel processed c := by
        rintro (there | stuck)
        · exact away there
        · rw [stuck] at opened
          cases opened
      exact ⟨.step open_ opened ih.1, (endsInTarget_cons further.ne_nil).mpr ih.2⟩
  · rintro ⟨routed, ends⟩
    induction routed with
    | arrived _ => exact .arrived (endsInTarget_singleton.mp ends)
    | step away opened further ih =>
      exact .step (fun there => away (Or.inl there)) opened
        (ih ((endsInTarget_cons further.ne_nil).mp ends))

theorem findPathToTarget_ne_nil_iff_exists_targetRoute :
    findPathToTarget heap c targetModel processed ≠ [] ↔
      ∃ positions route, TargetRoute heap targetModel processed c positions route := by
  simp only [targetRoute_iff]
  exact findPathToTarget_ne_nil_iff_exists_route

theorem listing_cons (further : route ≠ []) :
    listing sides processed (c :: route) =
      sides processed c ++ c :: listing sides (processed ++ [c]) route := by
  cases route with
  | nil => exact absurd rfl further
  | cons d route => rfl

/-- A route weighs as much as its listing is long. -/
theorem routeWeight_sideWeight :
    routeWeight (sideWeight sides) processed route = (listing sides processed route).length := by
  induction route generalizing processed with
  | nil => rfl
  | cons c route ih =>
    cases route with
    | nil => rfl
    | cons d route =>
      have further := List.cons_ne_nil d route
      rw [routeWeight_cons further, listing_cons further, ih, sideWeight, List.length_append,
        List.length_cons (a := c)]
      omega

/-- The mappings found, without their marks, hold the concepts of all paths. -/
theorem map_concept_flatten_filter (res : List (List PathItem)) :
    (res.filter fun lC => 0 < lC.length).flatten.map PathItem.concept =
      (res.map (List.map PathItem.concept)).flatten := by
  induction res with
  | nil => rfl
  | cons lC res ih =>
    cases lC with
    | nil => simpa using ih
    | cons item lC => simp [ih]

/-- One step of the search: it goes on along the last of the shortest paths found from the
open concepts, and puts the side leaves before the concept. -/
theorem exists_split_markPathToTarget (outside : findInTarget heap c targetModel = none)
    (found : findPathToTarget heap c targetModel processed ≠ []) :
    ∃ before d after, opened heap processed c = before ++ d :: after ∧
      findPathToTarget heap d targetModel (processed ++ [c]) ≠ [] ∧
      markPathToTarget heap c targetModel processed =
        (sideLeaves heap targetModel processed c).map .leaf ++
          .through c :: markPathToTarget heap d targetModel (processed ++ [c]) ∧
      (∀ e ∈ before, findPathToTarget heap e targetModel (processed ++ [c]) ≠ [] →
        (findPathToTarget heap d targetModel (processed ++ [c])).length ≤
          (findPathToTarget heap e targetModel (processed ++ [c])).length) ∧
      ∀ e ∈ after, findPathToTarget heap e targetModel (processed ++ [c]) ≠ [] →
        (findPathToTarget heap d targetModel (processed ++ [c])).length <
          (findPathToTarget heap e targetModel (processed ++ [c])).length := by
  rw [← markPathToTarget_ne_nil_iff, markPathToTarget_of_notInTarget outside] at found
  rw [markPathToTarget_of_notInTarget outside]
  simp only [← markPathToTarget_ne_nil_iff, ← length_markPathToTarget]
  -- the leaves are what the maps list, without their marks
  have leaves := map_concept_flatten_filter ((opened heap processed c).map fun d =>
    markPathToTarget heap d targetModel (processed ++ [c]))
  simp only [List.map_map, Function.comp_def, map_concept_markPathToTarget] at leaves
  cases mappings : ((opened heap processed c).map fun d =>
      markPathToTarget heap d targetModel (processed ++ [c])).filter fun lC => 0 < lC.length with
  | nil =>
    rw [joinMarked, mappings] at found
    exact absurd rfl found
  | cons first rest =>
    obtain ⟨before, d, after, split, nonempty, chosen, le, lt⟩ := exists_split_shortest mappings
    refine ⟨before, d, after, split, nonempty, ?_, le, lt⟩
    rw [mappings] at leaves
    rw [joinMarked, mappings, ← chosen, sideLeaves, ← leaves]
    exact List.append_assoc _ _ _

/-- The route is the lightest one, and the list of the path is what is listed for it. -/
theorem lightest_routeToTarget
    (found : findPathToTarget heap c targetModel processed ≠ []) :
    (∃ positions, LightestRoute heap targetModel (sideLeaves heap targetModel) processed c positions
      (routeToTarget heap targetModel processed c)) ∧
    findPathToTarget heap c targetModel processed =
      listing (sideLeaves heap targetModel) processed
        (routeToTarget heap targetModel processed c) := by
  induction processed, c using search_induction heap targetModel with
  | inTarget processed c inside =>
    rw [routeToTarget, markPathToTarget_of_inTarget inside,
      findPathToTarget_of_inTarget heap inside]
    exact ⟨⟨[], .arrived inside⟩, rfl⟩
  | notInTarget processed c outside ih =>
    have away := Option.not_isSome_iff_eq_none.mpr outside
    obtain ⟨before, d, after, split, onward, marked, le, lt⟩ :=
      exists_split_markPathToTarget outside found
    have step : ∀ e ∈ before ++ d :: after, e ∈ opened heap processed c :=
      fun e member => split ▸ member
    have d_open : d ∈ before ++ d :: after := List.mem_append_right _ List.mem_cons_self
    obtain ⟨⟨positions, best⟩, listed⟩ := ih d (step d d_open) onward
    have route_eq : routeToTarget heap targetModel processed c =
        c :: routeToTarget heap targetModel (processed ++ [c]) d := by
      rw [routeToTarget, marked, List.filterMap_append, List.filterMap_map]
      simp [PathItem.onRoute, Function.comp_def, routeToTarget]
    -- from no open concept there is a route lighter than the path found there
    have least : ∀ e ∈ before ++ d :: after, ∀ positions' nodes',
        TargetRoute heap targetModel (processed ++ [c]) e positions' nodes' →
          findPathToTarget heap e targetModel (processed ++ [c]) ≠ [] ∧
          (findPathToTarget heap e targetModel (processed ++ [c])).length ≤
            routeWeight (sideWeight (sideLeaves heap targetModel)) (processed ++ [c]) nodes' := by
      intro e member positions' nodes' routed
      have found' := findPathToTarget_ne_nil_iff_exists_targetRoute.mpr ⟨_, _, routed⟩
      obtain ⟨⟨_, best'⟩, listed'⟩ := ih e (step e member) found'
      rw [listed', ← routeWeight_sideWeight, ← listed']
      refine ⟨found', ?_⟩
      rcases best'.preferred _ _ routed with lighter | ⟨same, -⟩
      · exact lighter.le
      · exact same.le
    rw [route_eq, listing_cons best.route.ne_nil, ← listed]
    constructor
    · refine ⟨_, best.step away split ?_ ?_⟩
      · intro e member positions' nodes' routed
        obtain ⟨found', weight⟩ := least e (List.mem_append_left _ member) _ _ routed
        rw [routeWeight_sideWeight, ← listed]
        exact (le e member found').trans weight
      · intro e member positions' nodes' routed
        obtain ⟨found', weight⟩ :=
          least e (List.mem_append_right _ (List.mem_cons_of_mem _ member)) _ _ routed
        rw [routeWeight_sideWeight, ← listed]
        exact (lt e member found').trans_le weight
    · rw [← map_concept_markPathToTarget, marked, List.map_append, List.map_map, List.map_cons,
        map_concept_markPathToTarget]
      simp [Function.comp_def, PathItem.concept]

/-! ## Weighing -/

/-- A listing depends on what stands beside the concepts that the search comes to. -/
theorem listing_congr (routed : TargetRoute heap targetModel processed c positions route)
    (same : ∀ processed' d, searchBound heap d processed' ≤ searchBound heap c processed →
      sides processed' d = sides' processed' d) :
    listing sides processed route = listing sides' processed route := by
  induction routed with
  | arrived _ => rfl
  | @step processed c d _ _ _ _ there further ih =>
    have smaller := searchBound_lt_of_opened (List.mem_of_getElem? there)
    rw [listing_cons further.ne_nil, listing_cons further.ne_nil, same processed c (Nat.le_refl _),
      ih fun processed' e le => same processed' e (le.trans smaller.le)]

theorem LightestRoute.congr
    (best : LightestRoute heap targetModel sides processed c positions route)
    (same : ∀ processed' d, searchBound heap d processed' ≤ searchBound heap c processed →
      sides processed' d = sides' processed' d) :
    LightestRoute heap targetModel sides' processed c positions route where
  route := best.route
  preferred positions' route' routed := by
    have preferred := best.preferred positions' route' routed
    rw [routeWeight_sideWeight, routeWeight_sideWeight] at preferred ⊢
    rwa [listing_congr best.route same, listing_congr routed same] at preferred

/-- What stands beside a concept is determined by what stands beside those the search comes
to from there. -/
theorem Weighing.unique (weighing : Weighing heap targetModel sides)
    (weighing' : Weighing heap targetModel sides') (processed : List ConceptRef)
    (c : ConceptRef) : sides processed c = sides' processed c := by
  induction bound : searchBound heap c processed using Nat.strong_induction_on
    generalizing c processed with
  | _ bound ih =>
    subst bound
    rw [weighing processed c, weighing' processed c]
    refine List.filter_congr fun e _ => decide_eq_decide.mpr ?_
    refine forall₂_congr fun d step => ?_
    have smaller := searchBound_lt_of_opened step
    have same : ∀ processed' x,
        searchBound heap x processed' ≤ searchBound heap d (processed ++ [c]) →
          sides processed' x = sides' processed' x :=
      fun processed' x le => ih _ (le.trans_lt smaller) processed' x rfl
    constructor
    · intro apart positions route best
      have best' := best.congr fun processed' x le => (same processed' x le).symm
      rw [← listing_congr best.route same]
      exact apart positions route best'
    · intro apart positions route best
      rw [listing_congr best.route same]
      exact apart positions route (best.congr same)

/-- The side leaves that the search collects are what stands beside the concepts. -/
theorem weighing_sideLeaves (heap : Heap) (targetModel : ConceptNetwork) :
    Weighing heap targetModel (sideLeaves heap targetModel) := by
  intro processed c
  rw [sideLeaves]
  refine List.filter_congr fun e _ => decide_eq_decide.mpr ?_
  constructor
  · intro apart d step positions route best listed
    have found := findPathToTarget_ne_nil_iff_exists_targetRoute.mpr ⟨_, _, best.route⟩
    obtain ⟨⟨_, best'⟩, path⟩ := lightest_routeToTarget found
    obtain ⟨-, rfl⟩ := best.unique best'
    rw [← path] at listed
    exact apart (List.mem_flatten.mpr ⟨_, List.mem_map_of_mem step, listed⟩)
  · intro apart member
    obtain ⟨_, path, listed⟩ := List.mem_flatten.mp member
    obtain ⟨d, step, rfl⟩ := List.mem_map.mp path
    obtain ⟨⟨positions, best⟩, path⟩ := lightest_routeToTarget (List.ne_nil_of_mem listed)
    rw [path] at listed
    exact apart d step positions _ best listed

/-! ## Shortest routes -/

theorem isChain_of_targetRoute
    (routed : TargetRoute heap targetModel processed c positions route) :
    route.IsChain heap.LinkedTo := by
  induction routed with
  | arrived _ => exact List.isChain_singleton _
  | @step processed c d _ _ route away there further ih =>
    obtain ⟨linked, -⟩ := mem_filterLinksMapConcepts.mp (List.mem_of_getElem? there)
    obtain ⟨rest, rfl⟩ := further.exists_eq_cons
    exact List.isChain_cons_cons.mpr ⟨linked, ih⟩

/-- A route ends where its listing ends. -/
theorem getLast?_listing : (listing sides processed route).getLast? = route.getLast? := by
  induction route generalizing processed with
  | nil => rfl
  | cons c route ih =>
    cases route with
    | nil => rfl
    | cons d route =>
      have nonempty : listing sides (processed ++ [c]) (d :: route) ≠ [] := by
        intro empty
        have ends := @ih (processed ++ [c])
        rw [empty] at ends
        exact absurd (List.getLast?_eq_none_iff.mp ends.symm) (List.cons_ne_nil d route)
      rw [listing_cons (List.cons_ne_nil d route), List.append_cons,
        List.getLast?_append_of_ne_nil _ nonempty, ih, List.getLast?_cons_cons]

/-- A chain that avoids what is processed leads to a route that is no longer. -/
theorem exists_targetRoute_of_freshChain {rest : List ConceptRef}
    (chain : FreshChain heap.LinkedTo processed (c :: rest))
    (ends : EndsInTarget heap targetModel (c :: rest)) :
    ∃ positions route, TargetRoute heap targetModel processed c positions route ∧
      route.length ≤ (c :: rest).length := by
  induction rest generalizing c processed with
  | nil => exact ⟨[], [c], .arrived (endsInTarget_singleton.mp ends), Nat.le_refl 1⟩
  | cons d rest ih =>
    by_cases inside : (findInTarget heap c targetModel).isSome
    · exact ⟨[], [c], .arrived inside, by rw [List.length_singleton, List.length_cons]; omega⟩
    obtain ⟨linked, fresh, onward⟩ := freshChain_cons_cons_iff.mp chain
    obtain ⟨positions, route, routed, shorter⟩ :=
      ih onward ((endsInTarget_cons (List.cons_ne_nil d rest)).mp ends)
    obtain ⟨i, there⟩ := List.getElem?_of_mem (mem_filterLinksMapConcepts.mpr ⟨linked, fresh⟩)
    exact ⟨i :: positions, c :: route, .step inside there routed, Nat.succ_le_succ shorter⟩

/-- Every chain into the target is at least as long as some route. -/
theorem exists_targetRoute_of_isChain {chain : List ConceptRef}
    (linked : (c :: chain).IsChain heap.LinkedTo)
    (ends : EndsInTarget heap targetModel (c :: chain)) :
    ∃ positions route, TargetRoute heap targetModel [] c positions route ∧
      route.length ≤ (c :: chain).length := by
  obtain ⟨last, ends, inside⟩ := ends
  obtain ⟨rest, linked, nodup, ends, shorter⟩ := exists_nodup_chain_of_isChain linked ends
  obtain ⟨positions, route, routed, le⟩ :=
    exists_targetRoute_of_freshChain (freshChain_of_nodup linked nodup) ⟨last, ends, inside⟩
  exact ⟨positions, route, routed, le.trans (Nat.succ_le_succ shorter)⟩

/-- What the list follows is a route, so only its length is in question. -/
theorem routeShortest_iff_forall_targetRoute
    (found : findPathToTarget heap c targetModel [] ≠ []) :
    RouteShortest heap targetModel c ↔
      ∀ positions route, TargetRoute heap targetModel [] c positions route →
        (routeToTarget heap targetModel [] c).length ≤ route.length := by
  obtain ⟨⟨_, best⟩, path⟩ := lightest_routeToTarget found
  constructor
  · intro shortest positions route routed
    obtain ⟨rest, rfl⟩ := routed.exists_eq_cons
    exact shortest.shortest rest (isChain_of_targetRoute routed) (targetRoute_iff.mp routed).2
  · intro shortest
    refine ⟨best.route.exists_eq_cons, isChain_of_targetRoute best.route, ?_, ?_⟩
    · rw [path, getLast?_listing]
    · intro chain linked ends
      obtain ⟨positions, route, routed, shorter⟩ := exists_targetRoute_of_isChain linked ends
      exact (shortest positions route routed).trans shorter

/-- The list of a path follows a shortest chain into the target exactly when some shortest
route is preferred, by the lengths of the listings and then by the positions of the links,
to every longer one. -/
theorem routeShortest_iff (heap : Heap) (targetModel : ConceptNetwork) (c : ConceptRef)
    (reaches : ∃ d, Relation.ReflTransGen heap.LinkedTo c d ∧
      (findInTarget heap d targetModel).isSome) :
    RouteShortest heap targetModel c ↔
      ∃ sides, Weighing heap targetModel sides ∧
        ∃ positions route, TargetRoute heap targetModel [] c positions route ∧
          ∀ positions' route', TargetRoute heap targetModel [] c positions' route' →
            route.length ≤ route'.length ∧
              (route.length < route'.length →
                Preferred (listing sides [] route).length positions
                  (listing sides [] route').length positions') := by
  have found := (findPathToTarget_nil_ne_nil_iff heap).mpr reaches
  obtain ⟨⟨first, best⟩, -⟩ := lightest_routeToTarget found
  have weighing := weighing_sideLeaves heap targetModel
  rw [routeShortest_iff_forall_targetRoute found]
  constructor
  · intro shortest
    refine ⟨_, weighing, first, _, best.route, fun positions route routed => ?_⟩
    refine ⟨shortest positions route routed, fun _ => ?_⟩
    rw [← routeWeight_sideWeight, ← routeWeight_sideWeight]
    exact best.preferred positions route routed
  · rintro ⟨sides, other, positions', route', routed', outweighs⟩ positions route routed
    obtain rfl : sides = sideLeaves heap targetModel := by
      funext processed d
      exact other.unique weighing processed d
    by_contra longer
    obtain ⟨le, -⟩ := outweighs positions route routed
    -- the route found would be lighter than the shorter one, and heavier
    obtain ⟨-, heavier⟩ := outweighs _ _ best.route
    have lighter := best.preferred _ _ routed'
    rw [routeWeight_sideWeight, routeWeight_sideWeight] at lighter
    obtain rfl := lighter.antisymm (heavier (by omega))
    rw [best.route.nodes_unique routed'] at longer
    exact longer le

/-- Two ways to the target: over a user with two dead ends beside, and a longer one. -/
def leavesBesideShortRoute : Heap where
  uris := .ofList [{ name := "browser" }, { name := "user" }, { name := "network" },
    { name := "server" }, { name := "chair" }, { name := "desk" }, { name := "computer" },
    { name := "computerPhrase" }]
  concepts := .ofList [
    { uri := 0, conceptLinks := [0, 1] },
    { uri := 1, conceptLinks := [0, 2, 3, 4] },
    { uri := 2, conceptLinks := [1, 5] },
    { uri := 3, conceptLinks := [5, 6] },
    { uri := 4, conceptLinks := [2] },
    { uri := 5, conceptLinks := [3] },
    { uri := 6, conceptLinks := [4, 6], phrases := some 0 }]
  phraseLines := .ofList [{ frames := .ofList [(7, 0)] }]
  phrases := .ofList [{ uri := 7, text := "computer" }]
  links := .ofList [{ source := 0, destination := 1 }, { source := 0, destination := 2 },
    { source := 1, destination := 4 }, { source := 1, destination := 5 },
    { source := 1, destination := 6 }, { source := 2, destination := 3 },
    { source := 3, destination := 6 }]

theorem leavesBesideShortRoute_routeShortest_iff :
    RouteShortest leavesBesideShortRoute { nodes := [6] } 0 ↔
      ∃ sides, Weighing leavesBesideShortRoute { nodes := [6] } sides ∧
        ∃ positions route, TargetRoute leavesBesideShortRoute { nodes := [6] } [] 0 positions route ∧
          ∀ positions' route',
            TargetRoute leavesBesideShortRoute { nodes := [6] } [] 0 positions' route' →
              route.length ≤ route'.length ∧
                (route.length < route'.length →
                  Preferred (listing sides [] route).length positions
                    (listing sides [] route').length positions') :=
  routeShortest_iff leavesBesideShortRoute { nodes := [6] } 0
    ⟨6, .tail (.single ⟨leavesBesideShortRoute.link 0, List.mem_cons_self, rfl⟩)
      ⟨leavesBesideShortRoute.link 4, List.mem_of_getElem? (i := 3) rfl, rfl⟩, rfl⟩

/-- The list goes over the network and the server, though the user is nearer. -/
theorem leavesBesideShortRoute_not_routeShortest :
    ¬ RouteShortest leavesBesideShortRoute { nodes := [6] } 0 := by
  have arrived (processed : List ConceptRef) :
      markPathToTarget leavesBesideShortRoute 6 { nodes := [6] } processed = [.through 6] :=
    markPathToTarget_of_inTarget rfl
  have chair : markPathToTarget leavesBesideShortRoute 4 { nodes := [6] } [0, 1] = [] := by
    rw [markPathToTarget_of_notInTarget rfl]
    rfl
  have desk : markPathToTarget leavesBesideShortRoute 5 { nodes := [6] } [0, 1] = [] := by
    rw [markPathToTarget_of_notInTarget rfl]
    rfl
  have user : markPathToTarget leavesBesideShortRoute 1 { nodes := [6] } [0] =
      [.leaf 4, .leaf 5, .through 1, .through 6] := by
    have linked : opened leavesBesideShortRoute [0] 1 = [4, 5, 6] := rfl
    rw [markPathToTarget_of_notInTarget rfl, linked]
    simp only [List.map_cons, List.map_nil, List.cons_append, List.nil_append, chair, desk, arrived]
    decide
  -- the way over the user is listed with two leaves, the longer one over the network with none
  have server : markPathToTarget leavesBesideShortRoute 3 { nodes := [6] } [0, 2] =
      [.through 3, .through 6] := by
    have linked : opened leavesBesideShortRoute [0, 2] 3 = [6] := rfl
    rw [markPathToTarget_of_notInTarget rfl, linked]
    simp only [List.map_cons, List.map_nil, List.cons_append, List.nil_append, arrived]
    decide
  have network : markPathToTarget leavesBesideShortRoute 2 { nodes := [6] } [0] =
      [.through 2, .through 3, .through 6] := by
    have linked : opened leavesBesideShortRoute [0] 2 = [3] := rfl
    rw [markPathToTarget_of_notInTarget rfl, linked]
    simp only [List.map_cons, List.map_nil, List.cons_append, List.nil_append, server]
    decide
  have route : routeToTarget leavesBesideShortRoute { nodes := [6] } [] 0 = [0, 2, 3, 6] := by
    have linked : opened leavesBesideShortRoute [] 0 = [1, 2] := rfl
    rw [routeToTarget, markPathToTarget_of_notInTarget rfl, linked]
    simp only [List.map_cons, List.map_nil, List.nil_append, user, network]
    decide
  intro shortest
  -- so the search goes over the network, past the shorter route over the user
  have overUser := shortest.shortest [1, 6]
  rw [route] at overUser
  refine absurd (overUser ?_ ⟨6, rfl, rfl⟩) (by decide)
  refine List.isChain_cons_cons.mpr ⟨⟨leavesBesideShortRoute.link 0, List.mem_cons_self, rfl⟩,
    List.isChain_cons_cons.mpr
      ⟨⟨leavesBesideShortRoute.link 4, List.mem_of_getElem? (i := 3) rfl, rfl⟩,
        List.isChain_singleton 6⟩⟩

end ThinkingUnderstanding.Correlation
