import ThinkingUnderstanding.Persistence.Children
import ThinkingUnderstanding.Persistence.SaveInjective

/-!
# The knowledge base after a save

A save that follows its plan adds the nodes and the relationships of the plan, and no others.
So the relationships of the node of a resource are known up to their order: those to its
children, and those by which it is reached. From the ones to the children the map of children
is made; the node itself is found by a key that none of the others has.

## Main definitions

* `SavePlan.planned` — the relationships that a save adds
* `SavePlan.Stored` — the knowledge base after the save

## Main results

* `SavePlan.Stored.relationshipsOf_perm` — the relationships of a resource
* `SavePlan.Stored.enumerated_perm` — the relationships from which its map of children is made
* `KB.childKeys_of_perm`, `KB.get?_of_perm` — maps of children that have keys of their own
-/

namespace ThinkingUnderstanding

open Math Semantics

namespace SavePlan

variable (plan : SavePlan)

/-- The relationships that a save of `root` below the node `startNode` adds. -/
def planned (startNode : ℕ) (root : Child) : List Relationship :=
  plan.relationship startNode root :: plan.arrivals.flatMap fun e =>
    (plan.heap.children e.resource).map (plan.relationship (plan.nodeOf e.resource))

/-- What a save of `root` below the node `startNode` has added to the knowledge base. -/
structure Stored (startNode : ℕ) (root : Child) (kb : KB) : Prop where
  distinct : plan.resources.Nodup
  below : plan.kb.HasNode startNode
  nodes : kb.nodes = plan.kb.nodes ++
    plan.arrivals.map fun e => ⟨plan.nodeOf e.resource, plan.heap.exported e.resource⟩
  relationships : ∃ added, kb.relationships = plan.kb.relationships ++ added ∧
    added.Perm (plan.planned startNode root)

variable {plan} {startNode : ℕ} {root : Child} {kb : KB} {r : ResourceRef}

/-- A run that makes all arrivals stores the plan. -/
theorem Progress.stored {platform : Platform} {s s' : World} (distinct : plan.resources.Nodup)
    (below : plan.kb.HasNode startNode)
    (progress : plan.Progress platform [] plan.arrivals [plan.relationship startNode root] s s')
    (before : s.kb = plan.kb) : plan.Stored startNode root s'.kb where
  distinct := distinct
  below := below
  nodes := (progress.added before).1
  relationships := by
    obtain ⟨added, relationships, same⟩ := (progress.added before).2
    refine ⟨added, relationships, Multiset.coe_eq_coe.mp ?_⟩
    rw [same, Multiset.singleton_add]
    rfl

theorem not_hasNode_nodeOf (plan : SavePlan) (r : ResourceRef) : ¬ plan.kb.HasNode (plan.nodeOf r) :=
  plan.kb.upcoming_fresh _

namespace Stored

variable (stored : plan.Stored startNode root kb)
include stored

theorem hasNode (member : r ∈ plan.resources) : kb.HasNode (plan.nodeOf r) := by
  obtain ⟨e, arrival, rfl⟩ := List.mem_map.mp member
  rw [KB.HasNode, stored.nodes, List.map_append]
  exact List.mem_append_right _ (List.mem_map_of_mem (List.mem_map_of_mem arrival))

theorem getNodeById (member : r ∈ plan.resources) :
    (kb.getNodeById (some (plan.nodeOf r)) : ℕ) = plan.nodeOf r := by
  rw [KB.getNodeById_of_hasNode (stored.hasNode member)]

/-- A resource is stored with its properties. -/
theorem node (member : r ∈ plan.resources) :
    kb.node (plan.nodeOf r) = ⟨plan.nodeOf r, plan.heap.exported r⟩ := by
  have old : plan.kb.nodes.find? (fun node => node.id = plan.nodeOf r) = none := by
    rw [List.find?_eq_none]
    intro node present same
    refine plan.not_hasNode_nodeOf r ?_
    rw [← of_decide_eq_true same]
    exact List.mem_map_of_mem present
  have new : (plan.arrivals.map fun e =>
      (⟨plan.nodeOf e.resource, plan.heap.exported e.resource⟩ : Node)).find?
        (fun node => node.id = plan.nodeOf r) =
      some ⟨plan.nodeOf r, plan.heap.exported r⟩ := by
    obtain ⟨e, arrival, rfl⟩ := List.mem_map.mp member
    have some_ : ∃ node, (plan.arrivals.map fun e =>
        (⟨plan.nodeOf e.resource, plan.heap.exported e.resource⟩ : Node)).find?
          (fun node => node.id = plan.nodeOf e.resource) = some node := by
      rw [← Option.isSome_iff_exists, List.find?_isSome]
      exact ⟨_, List.mem_map_of_mem arrival, decide_eq_true rfl⟩
    obtain ⟨node, found⟩ := some_
    obtain ⟨e', arrival', rfl⟩ := List.mem_map.mp (List.mem_of_find?_eq_some found)
    have same := List.find?_some found
    rw [found, nodeOf_injOn (List.mem_map_of_mem arrival') (of_decide_eq_true same)]
  rw [KB.node, stored.nodes, List.find?_append, old, Option.none_or, new, Option.getD_some]

/-- The relationships that there were do not touch the new nodes. -/
theorem perm_filter {p : Relationship → Bool}
    (touches : ∀ rel, p rel = true → ∃ r, rel.startNode = plan.nodeOf r ∨ rel.endNode = plan.nodeOf r) :
    (kb.relationships.filter p).Perm ((plan.planned startNode root).filter p) := by
  obtain ⟨added, relationships, perm⟩ := stored.relationships
  have none : plan.kb.relationships.filter p = [] := by
    rw [List.filter_eq_nil_iff]
    intro rel old here
    obtain ⟨starts, ends⟩ := plan.kb.joined rel old
    obtain ⟨r, start | stop⟩ := touches rel here
    · exact plan.not_hasNode_nodeOf r (start ▸ starts)
    · exact plan.not_hasNode_nodeOf r (stop ▸ ends)
  rw [relationships, List.filter_append, none, List.nil_append]
  exact perm.filter p

/-- The relationships of the node of a resource. -/
theorem relationshipsOf_perm (r : ResourceRef) (type : String) :
    (kb.relationshipsOf (plan.nodeOf r) type).Perm
      ((plan.planned startNode root).filter fun rel =>
        (rel.startNode = plan.nodeOf r ∨ rel.endNode = plan.nodeOf r) ∧ rel.type = type) :=
  stored.perm_filter fun _ here => ⟨r, (of_decide_eq_true here).1⟩

/-- The relationships that start at the node of a resource lead to its children. -/
theorem filter_planned (member : r ∈ plan.resources) (p : Relationship → Bool) :
    (plan.planned startNode root).filter (fun rel => rel.startNode = plan.nodeOf r && p rel) =
      ((plan.heap.children r).map (plan.relationship (plan.nodeOf r))).filter p := by
  have other : ∀ e ∈ plan.arrivals, e.resource ≠ r →
      ((plan.heap.children e.resource).map (plan.relationship (plan.nodeOf e.resource))).filter
        (fun rel => rel.startNode = plan.nodeOf r && p rel) = [] := by
    intro e arrival ne
    rw [List.filter_eq_nil_iff]
    intro rel edge here
    obtain ⟨child, -, rfl⟩ := List.mem_map.mp edge
    rw [Bool.and_eq_true, decide_eq_true_eq] at here
    exact ne (nodeOf_injOn (List.mem_map_of_mem arrival) here.1)
  have own : ((plan.heap.children r).map (plan.relationship (plan.nodeOf r))).filter
      (fun rel => rel.startNode = plan.nodeOf r && p rel) =
        ((plan.heap.children r).map (plan.relationship (plan.nodeOf r))).filter p := by
    refine List.filter_congr fun rel edge => ?_
    obtain ⟨child, -, rfl⟩ := List.mem_map.mp edge
    simp [relationship]
  have first : ¬ (plan.relationship startNode root).startNode = plan.nodeOf r := fun same =>
    plan.not_hasNode_nodeOf r (same ▸ stored.below)
  -- among the arrivals there is one of `r`
  obtain ⟨e, arrival, rfl⟩ := List.mem_map.mp member
  obtain ⟨before, after, split⟩ := List.append_of_mem arrival
  have distinct := stored.distinct
  rw [resources, split, List.map_append, List.map_cons, List.nodup_append, List.nodup_cons] at distinct
  have earlier : ∀ x ∈ before, x.resource ≠ e.resource := fun x inside =>
    distinct.2.2 _ (List.mem_map_of_mem inside) _ List.mem_cons_self
  have later : ∀ x ∈ after, x.resource ≠ e.resource := fun x inside same =>
    distinct.2.1.1 (same ▸ List.mem_map_of_mem inside)
  have empty : ∀ es : List Child, (∀ x ∈ es, x ∈ plan.arrivals ∧ x.resource ≠ e.resource) →
      (es.flatMap fun x => (plan.heap.children x.resource).map
        (plan.relationship (plan.nodeOf x.resource))).filter
          (fun rel => rel.startNode = plan.nodeOf e.resource && p rel) = [] := by
    intro es others
    rw [List.filter_flatMap, List.flatMap_eq_nil_iff]
    exact fun x inside => other x (others x inside).1 (others x inside).2
  rw [planned, List.filter_cons_of_neg (by simp [first]), split, List.flatMap_append,
    List.flatMap_cons, List.filter_append, List.filter_append, own,
    empty before fun x inside => ⟨split ▸ List.mem_append_left _ inside, earlier x inside⟩,
    empty after fun x inside =>
      ⟨split ▸ List.mem_append_right _ (List.mem_cons_of_mem e inside), later x inside⟩,
    List.nil_append, List.append_nil]

/-- A relationship that starts at the node of a resource leads to one of its children. -/
theorem child_of_planned (member : r ∈ plan.resources) {rel : Relationship}
    (planned : rel ∈ plan.planned startNode root) (starts : rel.startNode = plan.nodeOf r) :
    ∃ child ∈ plan.heap.children r, plan.relationship (plan.nodeOf r) child = rel := by
  have here : rel ∈ (plan.planned startNode root).filter
      fun rel => rel.startNode = plan.nodeOf r && true :=
    List.mem_filter.mpr ⟨planned, by simp [starts]⟩
  rw [stored.filter_planned member] at here
  exact List.mem_map.mp (List.mem_filter.mp here).1

theorem mem_relationshipsOf (r : ResourceRef) {type : String} {rel : Relationship} :
    rel ∈ kb.relationshipsOf (plan.nodeOf r) type ↔ rel ∈ plan.planned startNode root ∧
      (rel.startNode = plan.nodeOf r ∨ rel.endNode = plan.nodeOf r) ∧ rel.type = type := by
  rw [(stored.relationshipsOf_perm r type).mem_iff, List.mem_filter, decide_eq_true_eq]

/-- The relationships from which the map of children of a resource is made. -/
theorem enumerated_perm (platform : Platform) (member : r ∈ plan.resources) (type : String) :
    ((platform.order (kb.relationshipsOf (plan.nodeOf r) type)).filter fun rel =>
        rel.endNode ≠ plan.nodeOf r).Perm
      (((plan.heap.children r).filter fun child => child.linkType = type ∧ child.resource ≠ r).map
        (plan.relationship (plan.nodeOf r))) := by
  have perm := ((platform.order_perm _).trans (stored.relationshipsOf_perm r type)).filter
    fun rel => rel.endNode ≠ plan.nodeOf r
  rw [List.filter_filter] at perm
  -- what ends elsewhere has to start at the node
  have starts : ∀ rel : Relationship,
      (decide (rel.endNode ≠ plan.nodeOf r) && decide ((rel.startNode = plan.nodeOf r ∨
        rel.endNode = plan.nodeOf r) ∧ rel.type = type)) =
      (decide (rel.startNode = plan.nodeOf r) &&
        decide (rel.type = type ∧ rel.endNode ≠ plan.nodeOf r)) := by
    intro rel
    rw [Bool.eq_iff_iff]
    simp only [Bool.and_eq_true, decide_eq_true_eq]
    tauto
  simp only [starts] at perm
  rw [stored.filter_planned member, List.filter_map] at perm
  have same : ((fun rel : Relationship => decide (rel.type = type ∧ rel.endNode ≠ plan.nodeOf r)) ∘
      plan.relationship (plan.nodeOf r)) =
        fun child => decide (child.linkType = type ∧ child.resource ≠ r) := by
    funext child
    have ends : plan.nodeOf child.resource ≠ plan.nodeOf r ↔ child.resource ≠ r :=
      not_congr ⟨fun same => (nodeOf_injOn member same.symm).symm, congrArg plan.nodeOf⟩
    simp only [Function.comp_apply, relationship, ends]
  rwa [same] at perm

end Stored

end SavePlan

namespace KB

variable {platform : Platform} {kb : KB} {id : ℕ} {type : String} {rels : List Relationship}
  (present : (kb.getNodeById (some id) : ℕ) = id)
  (perm : ((platform.order (kb.relationshipsOf id type)).filter fun rel => rel.endNode ≠ id).Perm rels)

include present

theorem loadChildrenMap_eq : kb.loadChildrenMap platform (some id) type =
    .ofList (((platform.order (kb.relationshipsOf id type)).filter fun rel => rel.endNode ≠ id).map
      fun rel => (rel.key, kb.node rel.endNode)) := by
  rw [loadChildrenMap, present]

include perm

/-- The entries of a map of children that have keys of their own. -/
theorem entries_of_perm (own : (rels.map Relationship.key).Nodup) :
    (kb.loadChildrenMap platform (some id) type).entries =
      ((platform.order (kb.relationshipsOf id type)).filter fun rel => rel.endNode ≠ id).map
        fun rel => (rel.key, kb.node rel.endNode) := by
  rw [loadChildrenMap_eq present]
  apply InsertionMap.entries_ofList_of_nodup
  rw [List.map_map]
  exact (perm.map Relationship.key).nodup_iff.mpr own

theorem childKeys_of_perm (own : (rels.map Relationship.key).Nodup) :
    kb.childKeys platform (some id) type =
      platform.keyOrder (((platform.order (kb.relationshipsOf id type)).filter fun rel =>
        rel.endNode ≠ id).map Relationship.key) := by
  rw [childKeys, InsertionMap.keys, entries_of_perm present perm own, List.map_map]
  rfl

theorem get?_of_perm (own : (rels.map Relationship.key).Nodup) {rel : Relationship}
    (member : rel ∈ rels) : (kb.loadChildrenMap platform (some id) type).get? rel.key =
      some (kb.node rel.endNode) := by
  rw [InsertionMap.get?_eq_some_iff, entries_of_perm present perm own]
  exact List.mem_map_of_mem (perm.mem_iff.mpr member)

/-- The keys of a map of children are among those of the relationships. -/
theorem subperm_childKeys :
    (kb.childKeys platform (some id) type).Subperm (rels.map Relationship.key) := by
  have subperm := InsertionMap.subperm_keys_ofList
    (((platform.order (kb.relationshipsOf id type)).filter fun rel => rel.endNode ≠ id).map
      fun rel => (rel.key, kb.node rel.endNode))
  rw [← loadChildrenMap_eq present, List.map_map] at subperm
  exact (platform.keyOrder_perm _).subperm.trans (subperm.trans (perm.map Relationship.key).subperm)

/-- When as many children are loaded as there are relationships, these have keys of their own. -/
theorem nodup_of_length_le
    (length : rels.length ≤ (kb.childKeys platform (some id) type).length) :
    (rels.map Relationship.key).Nodup := by
  have all := (subperm_childKeys present perm).perm_of_length_le (by rwa [List.length_map])
  exact all.nodup_iff.mp ((platform.keyOrder_perm _).nodup_iff.mpr (InsertionMap.nodup_keys _))

end KB

end ThinkingUnderstanding
