import Mathlib.Data.List.Lex

/-!
# Lightest routes

A search that goes from a node to every node open there, and takes the lightest of what
the searches from these find, finds a route of least weight, if the weight of a node does
not depend on how the route goes on. Which nodes are open may depend on the nodes passed,
and so may the weight. Of routes with the same weight it takes the one whose steps come
last among the open nodes, when the search prefers a later result to an equal earlier one.

## Main definitions

* `Math.Route` — a route to a goal, by the positions of its steps and by its nodes
* `Math.routeWeight` — the weight of the nodes of a route
* `Math.Preferred`, `Math.Lightest` — the order among routes and the first one in it

## Main results

* `exists_split_foldl_smallest`, `exists_split_shortest` — what a fold that prefers later
  results picks
* `Lightest.step` — a lightest route from a node, made from those of the open nodes
* `Lightest.unique` — there is one lightest route at most
-/

namespace Math

section Smallest

variable {β : Type*} (size : β → ℕ)

/-- A fold that keeps what it has only against something greater picks the last of the
smallest elements. -/
theorem exists_split_foldl_smallest (first : β) (rest : List β) :
    ∃ before after,
      first :: rest =
        before ++ rest.foldl (fun s t => if size t > size s then s else t) first :: after ∧
      (∀ y ∈ before,
        size (rest.foldl (fun s t => if size t > size s then s else t) first) ≤ size y) ∧
      ∀ y ∈ after,
        size (rest.foldl (fun s t => if size t > size s then s else t) first) < size y := by
  -- the first element is the best so far, and the fold goes on with the better one
  induction rest generalizing first with
  | nil => exact ⟨[], [], rfl, nofun, nofun⟩
  | cons second rest ih =>
    rw [List.foldl_cons]
    obtain ⟨before, after, split, le, lt⟩ := ih (if size second > size first then first else second)
    by_cases greater : size second > size first
    · rw [if_pos greater] at split le lt ⊢
      -- the first element stays, and the second one is skipped
      cases before with
      | nil =>
        obtain ⟨same, rfl⟩ := List.cons.inj split
        refine ⟨[], second :: rest, by rw [← same]; rfl, nofun, fun y member => ?_⟩
        rcases List.mem_cons.mp member with rfl | later
        · rw [← same]
          exact greater
        · exact lt y later
      | cons head before =>
        obtain ⟨rfl, same⟩ := List.cons.inj split
        refine ⟨first :: second :: before, after, congrArg (first :: second :: ·) same,
          fun y member => ?_, lt⟩
        have least := le first List.mem_cons_self
        rcases List.mem_cons.mp member with rfl | member
        · exact least
        rcases List.mem_cons.mp member with rfl | member
        · omega
        · exact le y (List.mem_cons_of_mem _ member)
    · -- the second element takes the place of the first
      rw [if_neg greater] at split le lt ⊢
      refine ⟨first :: before, after, by rw [split]; rfl, fun y member => ?_, lt⟩
      rcases List.mem_cons.mp member with rfl | member
      · cases before with
        | nil =>
          obtain ⟨same, -⟩ := List.cons.inj split
          rw [← same]
          omega
        | cons head before =>
          obtain ⟨rfl, -⟩ := List.cons.inj split
          have least := le second List.mem_cons_self
          omega
      · exact le y member

/-- Among the lists found from some nodes the fold picks the last of the shortest ones that
are not empty. -/
theorem exists_split_shortest {α : Type*} {as : List α} {search : α → List β}
    {first : List β} {rest : List (List β)}
    (found : ((as.map search).filter fun l => 0 < l.length) = first :: rest) :
    ∃ before a after, as = before ++ a :: after ∧ search a ≠ [] ∧
      rest.foldl (fun s t => if t.length > s.length then s else t) first = search a ∧
      (∀ b ∈ before, search b ≠ [] → (search a).length ≤ (search b).length) ∧
      ∀ b ∈ after, search b ≠ [] → (search a).length < (search b).length := by
  obtain ⟨lists, lists', split, le, lt⟩ := exists_split_foldl_smallest List.length first rest
  -- the split of the lists that are not empty is pulled back to the elements
  rw [← found, List.filter_map] at split
  obtain ⟨kept, tail, same, rfl, later⟩ := List.map_eq_append_iff.mp split
  obtain ⟨a, kept', rfl, chosen, rfl⟩ := List.map_eq_cons_iff.mp later
  obtain ⟨before, tail, rfl, rfl, onward⟩ := List.filter_eq_append_iff.mp same
  obtain ⟨skipped, after, rfl, empty, nonempty, rfl⟩ := List.filter_eq_cons_iff.mp onward
  have passes : ∀ b, search b ≠ [] → ((fun l : List β => decide (0 < l.length)) ∘ search) b := by
    intro b filled
    exact decide_eq_true (List.length_pos_iff.mpr filled)
  refine ⟨before ++ skipped, a, after, (List.append_assoc _ _ _).symm, ?_, chosen.symm, ?_, ?_⟩
  · exact List.length_pos_iff.mp (of_decide_eq_true nonempty)
  · intro b member filled
    rw [chosen]
    rcases List.mem_append.mp member with member | member
    · exact le _ (List.mem_map_of_mem (List.mem_filter.mpr ⟨member, passes b filled⟩))
    · exact absurd (passes b filled) (empty b member)
  · intro b member filled
    rw [chosen]
    exact lt _ (List.mem_map_of_mem (List.mem_filter.mpr ⟨member, passes b filled⟩))

end Smallest

section Routes

variable {α : Type*} (next : List α → α → List α) (goal : List α → α → Prop)
  (weight : List α → α → ℕ)

/-- A route from a node to a goal: at each node the position of the next one among the
open nodes, and the nodes themselves. -/
inductive Route : List α → α → List ℕ → List α → Prop
  | arrived {processed : List α} {a : α} (here : goal processed a) : Route processed a [] [a]
  | step {processed : List α} {a b : α} {i : ℕ} {positions : List ℕ} {nodes : List α}
      (away : ¬ goal processed a) (opened : (next processed a)[i]? = some b)
      (further : Route (processed ++ [a]) b positions nodes) :
      Route processed a (i :: positions) (a :: nodes)

/-- The weight of the nodes of a route. The last one weighs one. -/
def routeWeight : List α → List α → ℕ
  | _, [] => 0
  | _, [_] => 1
  | processed, a :: b :: nodes =>
      weight processed a + routeWeight (processed ++ [a]) (b :: nodes)

/-- The order among routes: by weight, and among those of one weight by the positions of
their steps, the later ones first. -/
def Preferred (k : ℕ) (positions : List ℕ) (k' : ℕ) (positions' : List ℕ) : Prop :=
  k < k' ∨ k = k' ∧ positions' ≤ positions

/-- A route that is preferred to every other one. -/
structure Lightest (processed : List α) (a : α) (positions : List ℕ) (nodes : List α) :
    Prop where
  route : Route next goal processed a positions nodes
  preferred : ∀ positions' nodes', Route next goal processed a positions' nodes' →
    Preferred (routeWeight weight processed nodes) positions
      (routeWeight weight processed nodes') positions'

variable {next goal weight} {processed nodes nodes' : List α} {a b : α}
  {positions positions' : List ℕ}

theorem Route.exists_eq_cons (route : Route next goal processed a positions nodes) :
    ∃ rest, nodes = a :: rest := by
  cases route with
  | arrived => exact ⟨[], rfl⟩
  | step _ _ _ => exact ⟨_, rfl⟩

theorem Route.ne_nil (route : Route next goal processed a positions nodes) : nodes ≠ [] := by
  obtain ⟨rest, rfl⟩ := route.exists_eq_cons
  exact List.cons_ne_nil a rest

theorem routeWeight_cons (further : nodes ≠ []) :
    routeWeight weight processed (a :: nodes) =
      weight processed a + routeWeight weight (processed ++ [a]) nodes := by
  cases nodes with
  | nil => exact absurd rfl further
  | cons b nodes => rfl

/-- When every node weighs one, a route weighs as much as it is long. -/
theorem routeWeight_one : routeWeight (fun _ _ => 1) processed nodes = nodes.length := by
  induction nodes generalizing processed with
  | nil => rfl
  | cons a nodes ih =>
    cases nodes with
    | nil => rfl
    | cons b nodes =>
      rw [routeWeight_cons (List.cons_ne_nil b nodes), ih, List.length_cons (a := a)]
      omega

/-- The positions tell the nodes. -/
theorem Route.nodes_unique (route : Route next goal processed a positions nodes)
    (route' : Route next goal processed a positions nodes') : nodes = nodes' := by
  induction route generalizing nodes' with
  | arrived _ =>
    cases route' with
    | arrived _ => rfl
  | step _ opened _ ih =>
    cases route' with
    | step _ opened' further' =>
      obtain rfl := Option.some.inj (opened.symm.trans opened')
      rw [ih further']

theorem Route.length_eq (route : Route next goal processed a positions nodes) :
    nodes.length = positions.length + 1 := by
  induction route with
  | arrived _ => rfl
  | step _ _ _ ih => rw [List.length_cons, List.length_cons, ih]

theorem Preferred.total (k k' : ℕ) (positions positions' : List ℕ) :
    Preferred k positions k' positions' ∨ Preferred k' positions' k positions := by
  rcases Nat.lt_trichotomy k k' with lt | rfl | gt
  · exact Or.inl (Or.inl lt)
  · rcases le_total positions' positions with le | ge
    · exact Or.inl (Or.inr ⟨rfl, le⟩)
    · exact Or.inr (Or.inr ⟨rfl, ge⟩)
  · exact Or.inr (Or.inl gt)

theorem Preferred.antisymm {k k' : ℕ} (first : Preferred k positions k' positions')
    (second : Preferred k' positions' k positions) : positions = positions' := by
  rcases first with lt | ⟨rfl, le⟩
  · rcases second with lt' | ⟨rfl, -⟩
    · omega
    · omega
  · rcases second with lt' | ⟨-, le'⟩
    · omega
    · exact le_antisymm le' le

theorem Preferred.trans {k k' k'' : ℕ} {positions'' : List ℕ}
    (first : Preferred k positions k' positions')
    (second : Preferred k' positions' k'' positions'') :
    Preferred k positions k'' positions'' := by
  rcases first with lt | ⟨rfl, le⟩
  · rcases second with lt' | ⟨rfl, -⟩
    · exact Or.inl (lt.trans lt')
    · exact Or.inl lt
  · rcases second with lt' | ⟨rfl, le'⟩
    · exact Or.inl lt'
    · exact Or.inr ⟨rfl, le'.trans le⟩

theorem Preferred.cons {k k' w i : ℕ} (first : Preferred k positions k' positions') :
    Preferred (w + k) (i :: positions) (w + k') (i :: positions') := by
  rcases first with lt | ⟨rfl, le⟩
  · exact Or.inl (Nat.add_lt_add_left lt w)
  · exact Or.inr ⟨rfl, List.cons_le_cons i le⟩

/-- There is one lightest route at most. -/
theorem Lightest.unique (lightest : Lightest next goal weight processed a positions nodes)
    (lightest' : Lightest next goal weight processed a positions' nodes') :
    positions = positions' ∧ nodes = nodes' := by
  have same : positions = positions' :=
    (lightest.preferred _ _ lightest'.route).antisymm (lightest'.preferred _ _ lightest.route)
  subst same
  exact ⟨rfl, lightest.route.nodes_unique lightest'.route⟩

/-- At a goal the route ends. -/
theorem Lightest.arrived (here : goal processed a) :
    Lightest next goal weight processed a [] [a] where
  route := .arrived here
  preferred positions' nodes' route := by
    cases route with
    | arrived _ => exact Or.inr ⟨rfl, le_rfl⟩
    | step away _ _ => exact absurd here away

/-- Away from the goal the lightest route goes on along the lightest of those from the open
nodes, along the last one if there are several. -/
theorem Lightest.step {before after : List α} (away : ¬ goal processed a)
    (split : next processed a = before ++ b :: after)
    (lightest : Lightest next goal weight (processed ++ [a]) b positions nodes)
    (earlier : ∀ d ∈ before, ∀ positions' nodes',
      Route next goal (processed ++ [a]) d positions' nodes' →
        routeWeight weight (processed ++ [a]) nodes ≤ routeWeight weight (processed ++ [a]) nodes')
    (later : ∀ d ∈ after, ∀ positions' nodes',
      Route next goal (processed ++ [a]) d positions' nodes' →
        routeWeight weight (processed ++ [a]) nodes < routeWeight weight (processed ++ [a]) nodes') :
    Lightest next goal weight processed a (before.length :: positions) (a :: nodes) where
  route := .step away (by rw [split]; simp) lightest.route
  preferred positions' nodes' route := by
    cases route with
    | arrived here => exact absurd here away
    | @step _ _ d i positions' nodes' _ opened further =>
      rw [routeWeight_cons lightest.route.ne_nil, routeWeight_cons further.ne_nil]
      rw [split] at opened
      -- a route through another branch is compared by the place of the branch
      rcases Nat.lt_trichotomy i before.length with lt | rfl | gt
      · rw [List.getElem?_append_left lt] at opened
        have le := earlier d (List.mem_of_getElem? opened) _ _ further
        rcases Nat.lt_or_eq_of_le le with lighter | same
        · exact Or.inl (Nat.add_lt_add_left lighter _)
        · exact Or.inr ⟨by rw [same], (List.cons_lt_cons_iff.mpr (Or.inl lt)).le⟩
      · obtain rfl : b = d := by simpa using opened
        exact (lightest.preferred _ _ further).cons
      · obtain ⟨j, rfl⟩ : ∃ j, i = before.length + (j + 1) := ⟨i - before.length - 1, by omega⟩
        rw [List.getElem?_append_right (Nat.le_add_right _ _), Nat.add_sub_cancel_left,
          List.getElem?_cons_succ] at opened
        exact Or.inl (Nat.add_lt_add_left
          (later d (List.mem_of_getElem? opened) _ _ further) _)

end Routes

end Math
