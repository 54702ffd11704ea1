import Mathlib.Algebra.Order.BigOperators.Group.List
import Mathlib.Algebra.Order.Field.Rat

/-!
# The feature trees of a parse

The result of parsing a sentence is a tree of `FeatureNode` objects. A node has some
features with values, a node `links` whose features are the grammatical relations to other
nodes, and possibly a `NEXT` node. Both the splitter and the link parser walk down this
tree: into the relations named in `Constant.RelexFeatures`, and along `NEXT`.

A node without `links` and one whose `links` are empty are treated alike by both, and so
are not told apart. The relations are listed in the order in which the map enumerates them.

## Main definitions

* `FeatureNode` — a node with what is below it
* `FeatureNode.fold` — the walk, for any function computed on the way
* `FeatureNode.visited` — the nodes that are walked to

## Main results

* `FeatureNode.fold_node` — one step of the walk
* `FeatureNode.induction` — induction along the walk
-/

namespace ThinkingUnderstanding

/-- The features of a node that have values. -/
structure NodeFeatures where
  object : ℕ := 0
  name : Option String := none
  origStr : Option String := none
  /-- The feature `orig_str` of the node `nameSource`. -/
  nameSourceOrigStr : Option String := none
  /-- The feature `index_in_sentence` of the node `nameSource` as a number, or the message
  of the exception that reading it raises. -/
  sentenceIndex : Except String ℚ := .ok 0

/-- `FeatureNode`, the root of a tree. -/
inductive FeatureNode
  | node (features : NodeFeatures) (links : List (String × FeatureNode))
      (next : Option FeatureNode)

/-- `Constant.RelexFeatures`. -/
def relexFeatures : List String := ["_subj", "_obj", "_iobj", "_advmod", "of"]

/-- `Constant.RelexFeaturesPhrases`. -/
def relexFeaturesPhrases : List String := ["of"]

/-- The relations of a node that are walked into. -/
def filteredFeatures {β : Type*} (links : List (String × β)) : List (String × β) :=
  links.filter fun link => link.1 ∈ relexFeatures

namespace FeatureNode

section Fold

variable {β : Type*} (body : NodeFeatures → List (String × β) → Option β → β)

mutual

/-- The walk through a tree: `body` combines the features of a node with what the walk
gives for its relations and for `NEXT`. -/
def fold : FeatureNode → β
  | node features links next => body features (foldLinks links) (foldNext next)
termination_by structural tree => tree

/-- The walk through the relations of a node. -/
def foldLinks : List (String × FeatureNode) → List (String × β)
  | [] => []
  | (name, feature) :: rest => (name, fold feature) :: foldLinks rest
termination_by structural links => links

/-- The walk through `NEXT`. -/
def foldNext : Option FeatureNode → Option β
  | none => none
  | some feature => some (fold feature)
termination_by structural next => next

end

theorem foldLinks_eq (links : List (String × FeatureNode)) :
    foldLinks body links = links.map fun link => (link.1, fold body link.2) := by
  induction links with
  | nil => rfl
  | cons link rest ih =>
    obtain ⟨name, feature⟩ := link
    rw [foldLinks, ih]
    rfl

theorem foldNext_eq (next : Option FeatureNode) : foldNext body next = next.map (fold body) := by
  cases next <;> rfl

theorem fold_node (features : NodeFeatures) (links : List (String × FeatureNode))
    (next : Option FeatureNode) :
    fold body (node features links next) =
      body features (links.map fun link => (link.1, fold body link.2))
        (next.map (fold body)) := by
  rw [fold, foldLinks_eq, foldNext_eq]

end Fold

/-- Induction along the walk: a property passes from what is below a node to the node. -/
@[elab_as_elim]
theorem induction {P : FeatureNode → Prop}
    (step : ∀ features links next, (∀ link ∈ links, P link.2) → (∀ feature ∈ next, P feature) →
      P (node features links next)) (tree : FeatureNode) : P tree :=
  @FeatureNode.rec P (fun links => ∀ link ∈ links, P link.2)
    (fun next => ∀ feature ∈ next, P feature) (fun link => P link.2)
    step
    (List.forall_mem_nil _)
    (fun _ _ head tail => List.forall_mem_cons.mpr ⟨head, tail⟩)
    (fun _ member => nomatch member)
    (fun _ ih _ member => Option.some.inj member ▸ ih)
    (fun _ _ ih => ih) tree

theorem filteredFeatures_map {α β : Type*} (f : α → β) (links : List (String × α)) :
    filteredFeatures (links.map fun link => (link.1, f link.2)) =
      (filteredFeatures links).map fun link => (link.1, f link.2) := by
  rw [filteredFeatures, filteredFeatures, List.filter_map]
  rfl

/-- The names of the relations of a node that are walked into. -/
def linkNames {β : Type*} (links : List (String × β)) : List String :=
  (filteredFeatures links).map Prod.fst

/-- A node that is walked to, with the names of its relations. -/
structure Visited where
  features : NodeFeatures
  linkNames : List String

/-- The nodes that are walked to. -/
def visited : FeatureNode → List Visited :=
  fold fun features links next =>
    ⟨features, linkNames links⟩ ::
      ((filteredFeatures links).flatMap Prod.snd ++ next.getD [])

/-- The nodes walked to below a node: those of its relations and those of `NEXT`. -/
theorem visited_node (features : NodeFeatures) (links : List (String × FeatureNode))
    (next : Option FeatureNode) :
    visited (node features links next) = ⟨features, linkNames links⟩ ::
      ((filteredFeatures links).flatMap (fun link => visited link.2) ++
        next.elim [] visited) := by
  rw [visited, fold_node, filteredFeatures_map, List.flatMap_map, linkNames,
    filteredFeatures_map, List.map_map]
  cases next <;> rfl

/-- The features of the root. -/
def root : FeatureNode → NodeFeatures
  | node features _ _ => features

/-- A relation between two nodes. -/
structure Relation where
  source : NodeFeatures
  name : String
  destination : NodeFeatures

/-- The root of a tree, and the relations in it, when one goes through what is below a
relation a number of times. -/
def rootRelations (passes : ℕ) : FeatureNode → NodeFeatures × List Relation :=
  fold fun features links next =>
    (features, ((filteredFeatures links).map fun link => ⟨features, link.1, link.2.1⟩) ++
      (List.replicate passes ((filteredFeatures links).flatMap fun link => link.2.2)).flatten ++
        (next.map Prod.snd).getD [])

/-- The relations that are met when one goes through what is below a relation a number of
times. -/
def relationsPassed (passes : ℕ) (tree : FeatureNode) : List Relation :=
  (rootRelations passes tree).2

/-- The relations of a tree. -/
def relations (tree : FeatureNode) : List Relation := relationsPassed 1 tree

/-- The relations of a tree that are below another relation: along `NEXT` from the root, the
relations of the nodes at the other ends. -/
def nestedRelations : FeatureNode → List Relation
  | node _ links none => (filteredFeatures links).flatMap fun link => link.2.relations
  | node _ links (some next) =>
      ((filteredFeatures links).flatMap fun link => link.2.relations) ++ nestedRelations next
termination_by structural tree => tree

theorem fst_rootRelations (passes : ℕ) (tree : FeatureNode) :
    (rootRelations passes tree).1 = tree.root := by
  cases tree
  rw [rootRelations, fold_node]
  rfl

variable (passes : ℕ) (features : NodeFeatures) (links : List (String × FeatureNode))
  (next : Option FeatureNode)

theorem relationsPassed_node : relationsPassed passes (node features links next) =
    ((filteredFeatures links).map fun link => ⟨features, link.1, link.2.root⟩) ++
      (List.replicate passes
        ((filteredFeatures links).flatMap fun link => link.2.relationsPassed passes)).flatten ++
        next.elim [] (relationsPassed passes) := by
  have continued : ((next.map (rootRelations passes)).map Prod.snd).getD [] =
      next.elim [] (relationsPassed passes) := by cases next <;> rfl
  have roots : ((filteredFeatures links).map fun link =>
      (⟨features, link.1, (rootRelations passes link.2).1⟩ : Relation)) =
        (filteredFeatures links).map fun link => ⟨features, link.1, link.2.root⟩ :=
    List.map_congr_left fun link _ => by rw [fst_rootRelations]
  rw [relationsPassed, rootRelations, fold_node, ← rootRelations, filteredFeatures_map,
    List.map_map, List.flatMap_map, continued, ← roots]
  rfl

theorem nestedRelations_node : nestedRelations (node features links next) =
    ((filteredFeatures links).flatMap fun link => link.2.relations) ++
      next.elim [] nestedRelations := by
  cases next with
  | none => exact (List.append_nil _).symm
  | some feature => rfl

theorem relationsPassed_node_eq_nil_iff : relationsPassed passes (node features links next) = [] ↔
    filteredFeatures links = [] ∧ next.elim [] (relationsPassed passes) = [] := by
  rw [relationsPassed_node, List.append_eq_nil_iff, List.append_eq_nil_iff, List.map_eq_nil_iff]
  apply and_congr_left
  intro _
  refine and_iff_left_of_imp fun empty => ?_
  rw [empty, List.flatMap_nil, List.flatten_replicate_nil]

/-- Some relation is met once exactly when one is met twice. -/
theorem relationsPassed_two_eq_nil_iff {tree : FeatureNode} :
    tree.relationsPassed 2 = [] ↔ tree.relations = [] := by
  induction tree using FeatureNode.induction with
  | step features links next linked continued =>
    rw [relations, relationsPassed_node_eq_nil_iff, relationsPassed_node_eq_nil_iff]
    apply and_congr_right
    intro _
    cases next with
    | none => exact Iff.rfl
    | some feature => exact continued feature rfl

/-- Going through what is below a relation twice meets as many relations as the tree has
only when there is nothing below a relation. -/
theorem length_relationsPassed_two (tree : FeatureNode) :
    tree.relations.length ≤ (tree.relationsPassed 2).length ∧
      ((tree.relationsPassed 2).length = tree.relations.length ↔ tree.nestedRelations = []) := by
  induction tree using FeatureNode.induction with
  | step features links next linked continued =>
    -- each part is at least as long when links are walked into twice
    have fewer : ((filteredFeatures links).flatMap fun link => link.2.relations).length ≤
        ((filteredFeatures links).flatMap fun link => link.2.relationsPassed 2).length := by
      rw [List.length_flatMap, List.length_flatMap]
      exact List.sum_le_sum fun link member => (linked link (List.mem_of_mem_filter member)).1
    have none : ((filteredFeatures links).flatMap fun link => link.2.relationsPassed 2) = [] ↔
        ((filteredFeatures links).flatMap fun link => link.2.relations) = [] := by
      rw [List.flatMap_eq_nil_iff, List.flatMap_eq_nil_iff]
      exact forall₂_congr fun link _ => relationsPassed_two_eq_nil_iff
    have after : (next.elim [] relations).length ≤ (next.elim [] (relationsPassed 2)).length ∧
        ((next.elim [] (relationsPassed 2)).length = (next.elim [] relations).length ↔
          next.elim [] nestedRelations = []) := by
      cases next with
      | none => simp
      | some feature => exact continued feature rfl
    have single : relations (node features links next) =
        ((filteredFeatures links).map fun link => ⟨features, link.1, link.2.root⟩) ++
          ((filteredFeatures links).flatMap fun link => link.2.relations) ++
            next.elim [] relations := by
      rw [relations, relationsPassed_node, List.replicate_one, List.flatten_singleton]
      rfl
    rw [single, relationsPassed_node, nestedRelations_node, List.append_eq_nil_iff, ← after.2, ← none,
      ← List.length_eq_zero_iff (l := List.flatMap _ _)]
    simp only [List.replicate_succ, List.replicate_zero, List.flatten_cons, List.flatten_nil,
      List.length_append, List.length_map, List.length_nil]
    omega

/-- With nothing below a relation, going through it twice makes no difference. -/
theorem relationsPassed_two_eq {tree : FeatureNode} (flat : tree.nestedRelations = []) :
    tree.relationsPassed 2 = tree.relations := by
  induction tree using FeatureNode.induction with
  | step features links next linked continued =>
    rw [nestedRelations_node, List.append_eq_nil_iff] at flat
    have twice : ((filteredFeatures links).flatMap fun link => link.2.relationsPassed 2) = [] := by
      rw [List.flatMap_eq_nil_iff] at flat ⊢
      exact fun link member => relationsPassed_two_eq_nil_iff.mpr (flat.1 link member)
    have after : next.elim [] (relationsPassed 2) = next.elim [] (relationsPassed 1) := by
      cases next with
      | none => rfl
      | some feature => exact continued feature rfl flat.2
    have once : ((filteredFeatures links).flatMap fun link => link.2.relationsPassed 1) = [] :=
      flat.1
    rw [relations, relationsPassed_node, relationsPassed_node, twice, once, after,
      List.flatten_replicate_nil, List.flatten_replicate_nil]

end FeatureNode

end ThinkingUnderstanding
