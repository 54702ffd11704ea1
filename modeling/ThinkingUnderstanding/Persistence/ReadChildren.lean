import ThinkingUnderstanding.Math.RelatedLists
import ThinkingUnderstanding.Persistence.SavedGraph

/-!
# What is read below the node of a resource

The children of a type are read back when each has a text of its own, when the resource is not a
child of itself, and when the resource is not reached by the type under the text of a child: a
relationship that ends at the node is enumerated among those that start there.

## Main definitions

* `SavePlan.Unambiguous` — the children of a type are told apart by their texts

## Main results

* `SavePlan.Stored.childKeys_below`, `SavePlan.Stored.loadChild_below` — they are read back
* `SavePlan.Stored.loadChild_root` — the resource that was saved is found by its key
-/

namespace ThinkingUnderstanding

open Math Semantics

/-! ### The children of a type -/

namespace Heap

variable {heap : Heap}

/-- The calls of a loop that saves under one type. -/
theorem filter_map_child {α : Type} (type type' : String) (f : α → ResourceRef) (as : List α) :
    (as.map (child type ∘ f)).filter (fun child => child.linkType = type') =
      if type = type' then as.map (child type ∘ f) else [] := by
  split_ifs with same
  · rw [List.filter_eq_self]
    intro edge member
    obtain ⟨a, -, rfl⟩ := List.mem_map.mp member
    exact decide_eq_true same
  · rw [List.filter_eq_nil_iff]
    intro edge member
    obtain ⟨a, -, rfl⟩ := List.mem_map.mp member
    exact fun other => same (of_decide_eq_true other)

/-- The ends of links are saved under types of their own. -/
theorem filter_linkEnds {type : String} (source : conceptLinkSourceName ≠ type)
    (destination : conceptLinkDestinationName ≠ type) (links : List ConceptLink) :
    (links.flatMap fun t =>
      [(⟨.concept t.source, conceptLinkSourceName, .linkName (heap.uri t.uri).name⟩ : Child),
        ⟨.concept t.destination, conceptLinkDestinationName, .linkName (heap.uri t.uri).name⟩]).filter
          (fun child => child.linkType = type) = [] := by
  rw [List.filter_eq_nil_iff]
  intro edge member
  obtain ⟨t, -, isEnd⟩ := List.mem_flatMap.mp member
  rcases List.mem_pair.mp isEnd with rfl | rfl
  · exact fun same => source (of_decide_eq_true same)
  · exact fun same => destination (of_decide_eq_true same)

theorem filter_children_nodes (n : NetworkRef) :
    (heap.children (.network n)).filter (fun child => child.linkType = nodesLinkName) =
      ((heap.network n).nodes.map .concept).map (child nodesLinkName) := by
  change (_ ++ _ ++ _ : List Child).filter _ = _
  rw [List.filter_append, List.filter_append, filter_map_child, filter_map_child, filter_map_child,
    if_pos rfl, if_neg (by decide), if_neg (by decide), List.append_nil, List.append_nil,
    List.map_map]

theorem filter_children_generalisations (c : ConceptRef) :
    (heap.children (.concept c)).filter (fun child => child.linkType = generalisationLinkName) =
      ((heap.generalisations c).values.map .concept).map (child generalisationLinkName) := by
  change (_ ++ _ ++ _ ++ _ : List Child).filter _ = _
  rw [List.filter_append, List.filter_append, List.filter_append, filter_map_child,
    filter_map_child, filter_map_child, filter_linkEnds (by decide) (by decide), if_pos rfl,
    if_neg (by decide), if_neg (by decide), List.append_nil, List.append_nil, List.append_nil,
    List.map_map]

theorem filter_children_specialisations (c : ConceptRef) :
    (heap.children (.concept c)).filter (fun child => child.linkType = specialisationLinkName) =
      ((heap.specialisations c).values.map .concept).map (child specialisationLinkName) := by
  change (_ ++ _ ++ _ ++ _ : List Child).filter _ = _
  rw [List.filter_append, List.filter_append, List.filter_append, filter_map_child,
    filter_map_child, filter_map_child, filter_linkEnds (by decide) (by decide), if_pos rfl,
    if_neg (by decide), if_neg (by decide), List.append_nil, List.append_nil, List.nil_append,
    List.map_map]

theorem filter_children_phrases (q : PhraseRef) :
    (heap.children (.phrase q)).filter (fun child => child.linkType = phrasesLinkName) =
      ((heap.phrase q).phrases.map .phrase).map (child phrasesLinkName) := by
  change (_ ++ _ : List Child).filter _ = _
  rw [List.filter_append, filter_map_child, filter_map_child, if_pos rfl, if_neg (by decide),
    List.append_nil, List.map_map]

theorem filter_children_concepts (q : PhraseRef) :
    (heap.children (.phrase q)).filter (fun child => child.linkType = conceptLinkName) =
      ((heap.phrase q).concepts.map .concept).map (child conceptLinkName) := by
  change (_ ++ _ : List Child).filter _ = _
  rw [List.filter_append, filter_map_child, filter_map_child, if_neg (by decide), if_pos rfl,
    List.nil_append, List.map_map]

end Heap

/-! ### What is read -/

/-- Each of the given children of a type is found by its own text. -/
structure SavePlan.Unambiguous (plan : SavePlan) (startNode : ℕ) (root : Child) (r : ResourceRef)
    (type : String) (below : List ResourceRef) : Prop where
  texts : (below.map plan.textOf).Nodup
  single : r ∉ below
  own : ∀ r' ∈ below, ∀ rel ∈ plan.planned startNode root, rel.type = type →
    rel.endNode = plan.nodeOf r → rel.key ≠ plan.textOf r'

instance (plan : SavePlan) (startNode : ℕ) (root : Child) (r : ResourceRef) (type : String)
    (below : List ResourceRef) : Decidable (plan.Unambiguous startNode root r type below) :=
  decidable_of_iff ((below.map plan.textOf).Nodup ∧ r ∉ below ∧ ∀ r' ∈ below,
      ∀ rel ∈ plan.planned startNode root, rel.type = type → rel.endNode = plan.nodeOf r →
        rel.key ≠ plan.textOf r')
    ⟨fun ⟨texts, single, own⟩ => ⟨texts, single, own⟩,
      fun apart => ⟨apart.texts, apart.single, apart.own⟩⟩

namespace SavePlan.Stored

variable {platform : Platform} {plan : SavePlan} {startNode : ℕ} {root : Child} {kb : KB}
  {r : ResourceRef} {type : String} (stored : plan.Stored startNode root kb)
  (member : r ∈ plan.resources)

include stored member

/-- A key of a map of children is that of a child. -/
theorem exists_child_of_mem_childKeys {key : String}
    (listed : key ∈ kb.childKeys platform (some (plan.nodeOf r)) type) :
    ∃ child ∈ plan.heap.children r, child.linkType = type ∧ child.resource ≠ r ∧
      (plan.relationship (plan.nodeOf r) child).key = key := by
  rw [KB.childKeys, (platform.keyOrder_perm _).mem_iff] at listed
  obtain ⟨⟨_, node⟩, entry, rfl⟩ := List.mem_map.mp listed
  rw [KB.loadChildrenMap_eq (stored.getNodeById member)] at entry
  obtain ⟨rel, inside, same⟩ := List.mem_map.mp (InsertionMap.mem_of_mem_entries_ofList entry)
  rw [(stored.enumerated_perm platform member type).mem_iff] at inside
  obtain ⟨child, passes, rfl⟩ := List.mem_map.mp inside
  obtain ⟨edge, typed, other⟩ : child ∈ plan.heap.children r ∧ child.linkType = type ∧
      child.resource ≠ r := by simpa using passes
  exact ⟨child, edge, typed, other, congrArg Prod.fst same⟩

/-- By a key of a map of children, the end of a relationship of the node is found. -/
theorem exists_loadChild_of_mem_childKeys {key : String}
    (listed : key ∈ kb.childKeys platform (some (plan.nodeOf r)) type) :
    ∃ rel ∈ plan.planned startNode root,
      (rel.startNode = plan.nodeOf r ∨ rel.endNode = plan.nodeOf r) ∧ rel.type = type ∧
        kb.loadChild platform (some (plan.nodeOf r)) key type = some (kb.node rel.endNode) := by
  obtain ⟨child, edge, typed, -, rfl⟩ := stored.exists_child_of_mem_childKeys member listed
  rw [KB.loadChild, stored.getNodeById member]
  cases first : (platform.order (kb.relationshipsOf (plan.nodeOf r) type)).find?
      fun rel => rel.key = (plan.relationship (plan.nodeOf r) child).key with
  | none =>
    have present : plan.relationship (plan.nodeOf r) child ∈
        platform.order (kb.relationshipsOf (plan.nodeOf r) type) := by
      refine (platform.order_perm _).mem_iff.mpr
        ((stored.mem_relationshipsOf r).mpr ⟨?_, Or.inl rfl, typed⟩)
      obtain ⟨e, arrival, rfl⟩ := List.mem_map.mp member
      exact List.mem_cons_of_mem _ (List.mem_flatMap.mpr ⟨e, arrival, List.mem_map_of_mem edge⟩)
    exact absurd (decide_eq_true rfl) (List.find?_eq_none.mp first _ present)
  | some rel =>
    have listed := (platform.order_perm _).mem_iff.mp (List.mem_of_find?_eq_some first)
    obtain ⟨planned, touches, type⟩ := (stored.mem_relationshipsOf r).mp listed
    exact ⟨rel, planned, touches, type, rfl⟩

variable {below : List ResourceRef}
  (group : (plan.heap.children r).filter (fun child => child.linkType = type) =
    below.map (Heap.child type))

include group

omit stored member in
/-- The children of a type that are not the resource itself. -/
theorem filter_others : (plan.heap.children r).filter (fun child =>
      child.linkType = type ∧ child.resource ≠ r) =
    (below.map (Heap.child type)).filter fun child => child.resource ≠ r := by
  have both : (fun child : Child => decide (child.linkType = type ∧ child.resource ≠ r)) =
      fun child => decide (child.resource ≠ r) && decide (child.linkType = type) := by
    funext child
    rw [Bool.decide_and, Bool.and_comm]
  rw [both, ← List.filter_filter, group]

variable (platform) in
/-- The relationships to the children of a type. -/
theorem perm_below (single : r ∉ below) :
    ((platform.order (kb.relationshipsOf (plan.nodeOf r) type)).filter fun rel =>
      rel.endNode ≠ plan.nodeOf r).Perm
    (below.map fun r' => plan.relationship (plan.nodeOf r) (Heap.child type r')) := by
  have perm := stored.enumerated_perm platform member type
  have all : (below.map (Heap.child type)).filter (fun child => child.resource ≠ r) =
      below.map (Heap.child type) := by
    rw [List.filter_eq_self]
    intro child edge
    obtain ⟨r', inside, rfl⟩ := List.mem_map.mp edge
    exact decide_eq_true fun same => single (same ▸ inside)
  rw [filter_others group, all, List.map_map] at perm
  exact perm

variable (platform) in
/-- The texts of the children are the keys, in some order. -/
theorem childKeys_below (single : r ∉ below) (texts : (below.map plan.textOf).Nodup) :
    ∃ rs : List ResourceRef, rs.Perm below ∧
      kb.childKeys platform (some (plan.nodeOf r)) type = rs.map plan.textOf := by
  have perm := stored.perm_below platform member group single
  have same : (below.map fun r' => plan.relationship (plan.nodeOf r) (Heap.child type r')).map
      Relationship.key = below.map plan.textOf := List.map_map ..
  have keys := KB.childKeys_of_perm (stored.getNodeById member) perm (same ▸ texts)
  have enumerated := (platform.keyOrder_perm _).trans (perm.map Relationship.key)
  rw [← keys, same] at enumerated
  exact exists_perm_of_perm_map enumerated

variable (platform) in
/-- When there are as many keys as children, these have texts of their own, and the resource is
not a child of itself. -/
theorem apart_of_length_le
    (length : below.length ≤ (kb.childKeys platform (some (plan.nodeOf r)) type).length) :
    r ∉ below ∧ (below.map plan.textOf).Nodup := by
  have present := stored.getNodeById member
  have single : r ∉ below := by
    intro inside
    have fewer := (KB.subperm_childKeys present (stored.enumerated_perm platform member type)).length_le
    have lost : ((below.map (Heap.child type)).filter fun child => child.resource ≠ r).length <
        (below.map (Heap.child type)).length :=
      List.length_filter_lt_length_iff_exists.mpr
        ⟨_, List.mem_map_of_mem inside, by simp [Heap.child]⟩
    rw [filter_others group, List.length_map, List.length_map] at fewer
    rw [List.length_map] at lost
    omega
  refine ⟨single, ?_⟩
  have perm := stored.perm_below platform member group single
  have texts := KB.nodup_of_length_le present perm (by rwa [List.length_map])
  rwa [List.map_map] at texts

variable (clear : plan.Unambiguous startNode root r type below)

include clear

/-- A child is found by its text. -/
theorem loadChild_below (closed : DepthFirst.Closed plan.heap.children Child.resource plan.resources)
    {r' : ResourceRef} (inside : r' ∈ below) :
    kb.loadChild platform (some (plan.nodeOf r)) (plan.textOf r') type =
      some ⟨plan.nodeOf r', plan.heap.exported r'⟩ := by
  have child_of : ∀ child : Child, child ∈ plan.heap.children r ∧ child.linkType = type ↔
      child ∈ below.map (Heap.child type) := by
    intro child
    rw [← group, List.mem_filter, decide_eq_true_eq]
  have edge := ((child_of _).mpr (List.mem_map_of_mem inside)).1
  rw [KB.loadChild, stored.getNodeById member]
  cases first : (platform.order (kb.relationshipsOf (plan.nodeOf r) type)).find?
      fun rel => rel.key = plan.textOf r' with
  | none =>
    have present : plan.relationship (plan.nodeOf r) (Heap.child type r') ∈
        platform.order (kb.relationshipsOf (plan.nodeOf r) type) := by
      have enumerated := (stored.perm_below platform member group clear.single).mem_iff.mpr
        (List.mem_map_of_mem inside)
      exact (List.mem_filter.mp enumerated).1
    exact absurd (decide_eq_true rfl) (List.find?_eq_none.mp first _ present)
  | some rel =>
    have listed := (platform.order_perm _).mem_iff.mp (List.mem_of_find?_eq_some first)
    have key : rel.key = plan.textOf r' := by simpa using List.find?_some first
    obtain ⟨planned, touches, typed⟩ := (stored.mem_relationshipsOf r).mp listed
    -- a relationship to the resource itself has another key, so this one leads to a child
    have outgoing := touches.resolve_right fun ends => clear.own r' inside rel planned typed ends key
    obtain ⟨child, children, rfl⟩ := stored.child_of_planned member planned outgoing
    obtain ⟨r₁, inside₁, rfl⟩ := List.mem_map.mp ((child_of child).mp ⟨children, typed⟩)
    obtain rfl := List.inj_on_of_nodup_map clear.texts inside₁ inside key
    exact congrArg some (stored.node (closed _ member _ edge))

omit group clear in
/-- By a key under which the resource itself is reached, the resource itself can be found. -/
theorem loadChild_self {rel : Relationship} (planned : rel ∈ plan.planned startNode root)
    (typed : rel.type = type) (ends : rel.endNode = plan.nodeOf r)
    (favoured : platform.order = (Platform.favouring fun other => other = rel).order) :
    kb.loadChild platform (some (plan.nodeOf r)) rel.key type =
      some ⟨plan.nodeOf r, plan.heap.exported r⟩ := by
  have listed : rel ∈ kb.relationshipsOf (kb.getNodeById (some (plan.nodeOf r))) type := by
    rw [stored.getNodeById member]
    exact (stored.mem_relationshipsOf _).mpr ⟨planned, Or.inr ends, typed⟩
  rw [KB.loadChild_of_favoured favoured listed, ends, stored.node member]

end SavePlan.Stored

/-! ### What is read below the parent -/

section Root

variable {platform : Platform} {plan : SavePlan} {root : Child} {kb : KB} {parent : Option ℕ}
  (stored : plan.Stored (plan.kb.getNodeById parent) root kb)

include stored

/-- The parent is the same node as before the save. -/
theorem SavePlan.Stored.getNodeById_parent (present : ∀ id, parent = some id → plan.kb.HasNode id) :
    (kb.getNodeById parent : ℕ) = plan.kb.getNodeById parent := by
  cases parent with
  | none => rfl
  | some id =>
    have before := present id rfl
    have after : kb.HasNode id := by
      rw [KB.HasNode, stored.nodes, List.map_append]
      exact List.mem_append_left _ before
    rw [KB.getNodeById_of_hasNode before, KB.getNodeById_of_hasNode after]

omit stored in
/-- Of what a save adds, only its first relationship touches the parent. -/
theorem SavePlan.eq_of_touches {rel : Relationship}
    (planned : rel ∈ plan.planned (plan.kb.getNodeById parent) root)
    (touches : rel.startNode = plan.kb.getNodeById parent ∨
      rel.endNode = plan.kb.getNodeById parent) :
    rel = plan.relationship (plan.kb.getNodeById parent) root := by
  rcases List.mem_cons.mp planned with same | later
  · exact same
  · obtain ⟨e, -, edge⟩ := List.mem_flatMap.mp later
    obtain ⟨child, -, rfl⟩ := List.mem_map.mp edge
    have old : ∀ r, plan.nodeOf r ≠ plan.kb.getNodeById parent := fun r same =>
      plan.not_hasNode_nodeOf r (same ▸ (plan.kb.getNodeById parent).2)
    rcases touches with starts | ends
    · exact absurd starts (old e.resource)
    · exact absurd ends (old child.resource)

theorem SavePlan.Stored.mem_relationshipsOf_parent
    (present : ∀ id, parent = some id → plan.kb.HasNode id) {type : String} {rel : Relationship} :
    rel ∈ kb.relationshipsOf (kb.getNodeById parent) type ↔
      rel ∈ plan.kb.relationshipsOf (plan.kb.getNodeById parent) type ∨
        rel = plan.relationship (plan.kb.getNodeById parent) root ∧ rel.type = type := by
  obtain ⟨added, relationships, perm⟩ := stored.relationships
  rw [KB.mem_relationshipsOf, KB.mem_relationshipsOf, stored.getNodeById_parent present,
    relationships, List.mem_append, perm.mem_iff]
  constructor
  · rintro ⟨old | planned, touches, typed⟩
    · exact Or.inl ⟨old, touches, typed⟩
    · exact Or.inr ⟨SavePlan.eq_of_touches planned touches, typed⟩
  · rintro (⟨old, touches, typed⟩ | ⟨rfl, typed⟩)
    · exact ⟨Or.inl old, touches, typed⟩
    · exact ⟨Or.inr List.mem_cons_self, Or.inl rfl, typed⟩

/-- What was saved is found by its key, when nothing else is. -/
theorem SavePlan.Stored.loadChild_root (present : ∀ id, parent = some id → plan.kb.HasNode id)
    (member : root.resource ∈ plan.resources) {key : String} (keyed : root.key = .linkName key)
    (new : ∀ rel ∈ plan.kb.relationshipsOf (plan.kb.getNodeById parent) root.linkType,
      rel.key ≠ key) :
    kb.loadChild platform parent key root.linkType =
      some ⟨plan.nodeOf root.resource, plan.heap.exported root.resource⟩ := by
  have own : (plan.relationship (plan.kb.getNodeById parent) root).key = key := by
    rw [SavePlan.relationship, keyed]
  rw [KB.loadChild]
  cases first : (platform.order (kb.relationshipsOf (kb.getNodeById parent) root.linkType)).find?
      fun rel => rel.key = key with
  | none =>
    have listed := (platform.order_perm _).mem_iff.mpr
      ((stored.mem_relationshipsOf_parent present).mpr (Or.inr ⟨rfl, rfl⟩))
    exact absurd (decide_eq_true own) (List.find?_eq_none.mp first _ listed)
  | some rel =>
    have listed := (platform.order_perm _).mem_iff.mp (List.mem_of_find?_eq_some first)
    have same : rel.key = key := by simpa using List.find?_some first
    rcases (stored.mem_relationshipsOf_parent present).mp listed with old | ⟨rfl, -⟩
    · exact absurd same (new rel old)
    · exact congrArg some (stored.node member)

end Root

end ThinkingUnderstanding
