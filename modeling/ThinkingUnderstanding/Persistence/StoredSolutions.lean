import ThinkingUnderstanding.Persistence.SavedGraph
import ThinkingUnderstanding.Persistence.SolvedIssues
import ThinkingUnderstanding.Persistence.SolvedIssueSaves

/-!
# The knowledge base after a solved issue has been saved

When the HowTos have no parameters, the nodes and relationships that are added after the network
are known: the solution, below the node of the issue, and the HowTos. So the issue is found
at its place, its solution below it, and the network is read as if nothing had been added. The
children of the solution are the HowTos that have been stored below it, by the texts of their URIs.

## Main definitions

* `SolvedIssue.StoredPlain` — the solution and its HowTos have been stored after the network

## Main results

* `SolvedIssue.StoredPlain.own_and_apart` — when as many HowTos are read as have been saved
* `SolvedIssue.StoredPlain.exists_loadChildrenList` — the HowTos that are then read
-/

namespace ThinkingUnderstanding

open Math Semantics Reporting

/-! ### A knowledge base to which something has been added -/

namespace KB

variable {kb kb' : KB} {added : List Node} {rels : List Relationship} {platform : Platform}

theorem relationshipsOf_append (relationships : kb'.relationships = kb.relationships ++ rels)
    (id : ℕ) (type : String) : kb'.relationshipsOf id type = kb.relationshipsOf id type ++
      rels.filter fun rel => (rel.startNode = id ∨ rel.endNode = id) ∧ rel.type = type := by
  rw [relationshipsOf, relationships, List.filter_append]
  rfl

/-- What is added with other types does not change the relationships of the type. -/
theorem relationshipsOf_append_of_other
    (relationships : kb'.relationships = kb.relationships ++ rels) (id : ℕ) {type : String}
    (others : ∀ rel ∈ rels, rel.type ≠ type) :
    kb'.relationshipsOf id type = kb.relationshipsOf id type := by
  have none : rels.filter (fun rel => (rel.startNode = id ∨ rel.endNode = id) ∧ rel.type = type) =
      [] := by
    refine List.filter_eq_nil_iff.mpr fun rel new here => ?_
    exact others rel new (of_decide_eq_true here).2
  rw [relationshipsOf_append relationships, none, List.append_nil]

/-- A number that is that of no node has no relationships. -/
theorem relationshipsOf_of_absent {id : ℕ} (absent : ¬ kb.HasNode id) (type : String) :
    kb.relationshipsOf id type = [] := by
  refine List.filter_eq_nil_iff.mpr fun rel present here => ?_
  obtain ⟨starts, ends⟩ := kb.joined rel present
  rcases (of_decide_eq_true here).1 with rfl | rfl
  · exact absent starts
  · exact absent ends

/-- A node that has been added is found by its number. -/
theorem node_of_added (nodes : kb'.nodes = kb.nodes ++ added)
    (absent : ∀ node ∈ added, ¬ kb.HasNode node.id) (apart : (added.map Node.id).Nodup)
    {node : Node} (member : node ∈ added) : kb'.node node.id = node := by
  have old : kb.nodes.find? (fun other => other.id = node.id) = none := by
    refine List.find?_eq_none.mpr fun other present same => ?_
    exact absent node member (of_decide_eq_true same ▸ List.mem_map_of_mem present)
  have some_ : ∃ other, added.find? (fun other => other.id = node.id) = some other := by
    rw [← Option.isSome_iff_exists, List.find?_isSome]
    exact ⟨node, member, decide_eq_true rfl⟩
  obtain ⟨other, found⟩ := some_
  have same := List.find?_some found
  have one : other = node := List.inj_on_of_nodup_map apart (List.mem_of_find?_eq_some found) member
    (of_decide_eq_true same)
  rw [KB.node, nodes, List.find?_append, old, Option.none_or, found, one, Option.getD_some]

/-- What is added with other types is not seen by what reads these. -/
theorem readsAs_of_added {types : List String} (nodes : kb'.nodes = kb.nodes ++ added)
    (relationships : kb'.relationships = kb.relationships ++ rels)
    (others : ∀ rel ∈ rels, rel.type ∉ types) : kb'.ReadsAs kb types where
  hasNode id present := by
    rw [HasNode, nodes, List.map_append]
    exact List.mem_append_left _ present
  node id present := by
    obtain ⟨node, there, same⟩ := List.mem_map.mp present
    have found : (kb.nodes.find? fun node => node.id = id).isSome :=
      List.find?_isSome.mpr ⟨node, there, decide_eq_true same⟩
    rw [KB.node, KB.node, nodes, List.find?_append, Option.or_of_isSome found]
  relationshipsOf id type _ member :=
    relationshipsOf_append_of_other relationships id fun rel new same =>
      others rel new (same ▸ member)

/-- The only relationship with a key leads to the child. -/
theorem loadChild_of_unique {id : ℕ} {key type : String} (rel : Relationship)
    (present : kb.HasNode id) (member : rel ∈ kb.relationshipsOf id type) (named : rel.key = key)
    (unique : ∀ other ∈ kb.relationshipsOf id type, other.key = key → other = rel) :
    kb.loadChild platform (some id) key type = some (kb.node rel.endNode) := by
  rw [KB.loadChild, getNodeById_of_hasNode present]
  have among := (platform.order_perm _).mem_iff.mpr member
  cases found : (platform.order (kb.relationshipsOf id type)).find? fun rel => rel.key = key with
  | none => exact absurd (decide_eq_true named) (List.find?_eq_none.mp found rel among)
  | some other =>
    have listed := (platform.order_perm _).mem_iff.mp (List.mem_of_find?_eq_some found)
    have same := List.find?_some found
    rw [Option.map_some, unique other listed (of_decide_eq_true same)]

/-- Children with keys of their own are all in the list of children. -/
theorem exists_loadChildrenList {id : ℕ} {type : String} (present : kb.HasNode id)
    (perm : ((platform.order (kb.relationshipsOf id type)).filter fun rel => rel.endNode ≠ id).Perm
      rels) (own : (rels.map Relationship.key).Nodup) :
    ∃ rels' : List Relationship, rels'.Perm rels ∧
      kb.loadChildrenList platform (some id) type = rels'.map fun rel => kb.node rel.endNode := by
  have here : (kb.getNodeById (some id) : ℕ) = id := by rw [getNodeById_of_hasNode present]
  have keys : (kb.childKeys platform (some id) type).Perm (rels.map Relationship.key) := by
    rw [childKeys_of_perm here perm own]
    exact (platform.keyOrder_perm _).trans (perm.map _)
  obtain ⟨rels', arranged, same⟩ := exists_perm_of_perm_map keys
  have found : ∀ rel ∈ rels', ((kb.loadChildrenMap platform (some id) type).get? ∘
      Relationship.key) rel = (some ∘ fun rel => kb.node rel.endNode) rel := fun rel member =>
    get?_of_perm here perm own (arranged.mem_iff.mp member)
  refine ⟨rels', arranged, ?_⟩
  rw [loadChildrenList, same, List.filterMap_map, List.filterMap_congr found, List.filterMap_eq_map]

end KB

namespace SolvedIssue

variable {platform : Platform} {store : IssueStore} {stack i : ℕ} {key linkType : String}
  {s s₁ t : World} {parent : {id // s.kb.HasNode id}}

/-- The solution of a solved issue. -/
def solution (store : IssueStore) (i : ℕ) : ThinkingUnderstanding.Solution :=
  store.solution (store.solvedIssue i).solution

/-- The state in which the node of the solution has been stored, after the network of the issue. -/
def solutionBegun (store : IssueStore) (i : ℕ) (s s₁ : World) : World :=
  s₁.addResource (solution store i).uri (Heap.exportedResource
    (s₁.heap.uri (solution store i).uri) (solution store i).probability) (some (s.kb.upcoming 0)) ""
    solutionName

/-- Where a solved issue is saved: no relationship of the type has the key yet, the type is
none of those of its parts, and no object that is saved with its network has its URI object. -/
structure Savable (store : IssueStore) (i : ℕ) (s : World) (parent : ℕ) (key linkType : String) :
    Prop where
  free : ∀ rel ∈ s.kb.relationshipsOf parent linkType, rel.key ≠ key
  type : linkType ∉ conceptsLinkName :: issueTypes
  unread : s.kb.Lacks conceptsLinkName
  own : ∀ r, DepthFirst.Reaches s.heap.children Child.resource
    (.network (store.solvedIssue i).issue) r → s.heap.uriRef r ≠ (store.solvedIssue i).uri

theorem Savable.not_mem {parent : ℕ} (savable : Savable store i s parent key linkType)
    (types : List String) (among : types ⊆ issueTypes) : linkType ∉ types :=
  fun member => savable.type (List.mem_cons_of_mem _ (among member))

theorem solutionName_ne : solutionName ≠ defaultLinkName := by decide

/-- The relationships by which the solution and its HowTos are stored. -/
def addedRelationships (store : IssueStore) (i : ℕ) (s s₁ : World) : List Relationship :=
  ⟨s.kb.upcoming 0, s₁.kb.upcoming 0, solutionName, ""⟩ ::
    store.howToRelationships (solutionBegun store i s s₁) (solution store i).uri
      (s₁.kb.upcoming 0) (solution store i).resources

/-- The solution and its HowTos have been stored after the network of the issue. -/
structure StoredPlain (platform : Platform) (store : IssueStore) (stack i : ℕ) (parent : ℕ)
    (key linkType : String) (s s₁ t : World) : Prop where
  network : SavesNetwork platform store stack i (some parent) key linkType s s₁
  gains : (solutionBegun store i s s₁).Gains platform t
    (store.howToNodes (solutionBegun store i s s₁) (solution store i).resources)
    (store.howToRelationships (solutionBegun store i s s₁) (solution store i).uri
      (s₁.kb.upcoming 0) (solution store i).resources)

/-- They are of the type of solutions and of the default type. -/
theorem type_of_added {rel : Relationship} (new : rel ∈ addedRelationships store i s s₁) :
    rel.type = solutionName ∨ rel.type = defaultLinkName := by
  rcases List.mem_cons.mp new with rfl | later
  · exact Or.inl rfl
  · exact Or.inr (forall_howToRelationships _ rel later).1

namespace SavesNetwork

variable (saves : SavesNetwork platform store stack i (some parent) key linkType s s₁)

include saves

/-- The node of the issue is still there. -/
theorem hasNode : s₁.kb.HasNode (s.kb.upcoming 0) :=
  saves.kept (KB.kept_hasNode _ _) (KB.hasNode_addChild .. |>.mpr (Or.inr rfl))

theorem hasNode_old {id : ℕ} (present : s.kb.HasNode id) : s₁.kb.HasNode id :=
  saves.kept (KB.kept_hasNode _ _) (KB.hasNode_addChild .. |>.mpr (Or.inl present))

/-- The relationships of other types are those that there were, and that of the issue. -/
theorem relationshipsOf {type : String} (other : type ∉ networkTypes) (id : ℕ) :
    s₁.kb.relationshipsOf id type = s.kb.relationshipsOf id type ++
      ([⟨parent, s.kb.upcoming 0, linkType, key⟩] : List Relationship).filter fun rel =>
        (rel.startNode = id ∨ rel.endNode = id) ∧ rel.type = type := by
  rw [saves.kept (KB.kept_relationshipsOf other _) fun _ => rfl]
  refine KB.relationshipsOf_append ?_ id type
  change (s.kb.addChild _ (some parent.val) linkType key).relationships = _
  rw [KB.relationships_addChild, KB.getNodeById_of_hasNode parent.2]

end SavesNetwork

namespace StoredPlain

variable (stored : StoredPlain platform store stack i parent key linkType s s₁ t)

include stored

/-- All relationships that have been added after the network. -/
theorem relationships :
    t.kb.relationships = s₁.kb.relationships ++ addedRelationships store i s s₁ := by
  rw [stored.gains.relationships]
  change (s₁.kb.addChild _ (some (s.kb.upcoming 0)) solutionName "").relationships ++ _ = _
  rw [KB.relationships_addChild, KB.getNodeById_of_hasNode stored.network.hasNode,
    List.append_assoc]
  rfl

theorem nodes : t.kb.nodes = s₁.kb.nodes ++ (⟨s₁.kb.upcoming 0, Heap.exportedResource
    (s₁.heap.uri (solution store i).uri) (solution store i).probability⟩ ::
      store.howToNodes (solutionBegun store i s s₁) (solution store i).resources) := by
  rw [stored.gains.nodes]
  change (s₁.kb.addChild _ (some (s.kb.upcoming 0)) solutionName "").nodes ++ _ = _
  rw [KB.nodes_addChild, List.append_assoc]
  rfl

/-- The network is read as after it has been saved. -/
theorem readsAs : t.kb.ReadsAs s₁.kb (conceptsNetworkName :: readTypes) := by
  refine KB.readsAs_of_added stored.nodes stored.relationships fun rel new => ?_
  rcases type_of_added new with type | type <;> rw [type] <;> decide

theorem hasNode {id : ℕ} (present : s₁.kb.HasNode id) : t.kb.HasNode id :=
  stored.readsAs.hasNode id present

/-- The issue is found. -/
theorem loadChild_issue (savable : Savable store i s parent key linkType) :
    t.kb.loadChild platform (some parent) key linkType = some (t.kb.node (s.kb.upcoming 0)) := by
  have other : linkType ∉ networkTypes := savable.not_mem _ (by decide)
  have rels : t.kb.relationshipsOf parent linkType =
      s.kb.relationshipsOf parent linkType ++ [⟨parent, s.kb.upcoming 0, linkType, key⟩] := by
    rw [KB.relationshipsOf_append_of_other stored.relationships,
      stored.network.relationshipsOf other, List.filter_cons_of_pos (by simp), List.filter_nil]
    intro rel new same
    rcases type_of_added new with type | type
    · exact savable.type (List.mem_cons_of_mem _ (same ▸ type ▸ by decide))
    · exact savable.type (List.mem_cons_of_mem _ (same ▸ type ▸ by decide))
  refine KB.loadChild_of_unique ⟨parent, s.kb.upcoming 0, linkType, key⟩
    (stored.hasNode (stored.network.hasNode_old parent.2)) ?_ rfl fun rel member named => ?_
  · rw [rels]
    exact List.mem_append_right _ List.mem_cons_self
  · rw [rels] at member
    rcases List.mem_append.mp member with old | new
    · exact absurd named (savable.free rel old)
    · exact List.mem_singleton.mp new

/-- The solution is found below the issue. -/
theorem loadChild_solution (savable : Savable store i s parent key linkType) :
    t.kb.loadChild platform (some (s.kb.upcoming 0)) "" solutionName =
      some (t.kb.node (s₁.kb.upcoming 0)) := by
  have apart : linkType ≠ solutionName := fun same =>
    savable.not_mem [solutionName] (by decide) (List.mem_singleton.mpr same)
  -- the node of the issue was a new one, and the network is not linked by this type
  have none : s₁.kb.relationshipsOf (s.kb.upcoming 0) solutionName = [] := by
    rw [stored.network.relationshipsOf (by decide),
      KB.relationshipsOf_of_absent (s.kb.not_hasNode_upcoming 0),
      List.filter_cons_of_neg (by simp [apart])]
    rfl
  refine KB.loadChild_of_unique ⟨s.kb.upcoming 0, s₁.kb.upcoming 0, solutionName, ""⟩
    (stored.hasNode stored.network.hasNode) ?_ rfl fun rel member _ => ?_
  · rw [KB.mem_relationshipsOf, stored.relationships]
    exact ⟨List.mem_append_right _ List.mem_cons_self, Or.inl rfl, rfl⟩
  · rw [KB.relationshipsOf_append stored.relationships, none, List.nil_append,
      List.mem_filter] at member
    rcases List.mem_cons.mp member.1 with first | later
    · exact first
    · have type := (of_decide_eq_true member.2).2
      rw [(forall_howToRelationships _ rel later).1] at type
      exact absurd type (by decide)

/-- The children of the solution are the HowTos that have been stored below it. -/
theorem perm_howTos : ((platform.order (t.kb.relationshipsOf (s₁.kb.upcoming 0)
      defaultLinkName)).filter fun rel => rel.endNode ≠ s₁.kb.upcoming 0).Perm
    ((store.howToRelationships (solutionBegun store i s s₁) (solution store i).uri
      (s₁.kb.upcoming 0) (solution store i).resources).filter
        fun rel => rel.startNode = s₁.kb.upcoming 0) := by
  have perm := (platform.order_perm (t.kb.relationshipsOf (s₁.kb.upcoming 0)
    defaultLinkName)).filter fun rel => rel.endNode ≠ s₁.kb.upcoming 0
  refine perm.trans (List.Perm.of_eq ?_)
  rw [KB.relationshipsOf_append stored.relationships,
    KB.relationshipsOf_of_absent (s₁.kb.not_hasNode_upcoming 0), List.nil_append,
    addedRelationships,
    List.filter_cons_of_neg fun here => absurd (of_decide_eq_true here).2 solutionName_ne,
    List.filter_filter]
  refine List.filter_congr fun rel member => ?_
  obtain ⟨type, -, j, ends⟩ := forall_howToRelationships _ rel member
  have other : s₁.kb.upcoming (j + 1) ≠ s₁.kb.upcoming 0 := fun same =>
    Nat.succ_ne_zero j (s₁.kb.upcoming_injective same)
  have ends' : rel.endNode = s₁.kb.upcoming (j + 1) := ends
  simp [type, ends', other]

/-- When as many HowTos are read as have been saved, they have been stored below the solution, under
texts of their own. -/
theorem own_and_apart (length : (solution store i).resources.length ≤
    (t.kb.loadChildrenList platform (some (s₁.kb.upcoming 0)) defaultLinkName).length) :
    (∀ x ∈ (solution store i).resources.dropLast, (store.howTo x).uri ≠ (solution store i).uri) ∧
      ((solution store i).resources.map fun x =>
        (solutionBegun store i s s₁).textOf (store.howTo x).uri).Nodup := by
  have here : (t.kb.getNodeById (some (s₁.kb.upcoming 0)) : ℕ) = s₁.kb.upcoming 0 := by
    rw [KB.getNodeById_of_hasNode]
    rw [KB.HasNode, stored.nodes, List.map_append]
    exact List.mem_append_right _ List.mem_cons_self
  let rels := store.howToRelationships (solutionBegun store i s s₁) (solution store i).uri
    (s₁.kb.upcoming 0) (solution store i).resources
  have all : rels.length = (solution store i).resources.length := length_howToRelationships _
  have keys : rels.map Relationship.key = (solution store i).resources.map fun x =>
    (solutionBegun store i s s₁).textOf (store.howTo x).uri := map_key_howToRelationships _
  have children := (List.length_filterMap_le ..).trans' length
  have few := (KB.subperm_childKeys here stored.perm_howTos).length_le
  rw [List.length_map] at few
  -- so no HowTo has been stored elsewhere
  have kept : rels.filter (fun rel => rel.startNode = s₁.kb.upcoming 0) = rels :=
    List.filter_sublist.eq_of_length_le (all.trans_le (children.trans few))
  have perm := stored.perm_howTos
  change List.Perm _ (rels.filter _) at perm
  rw [kept] at perm
  constructor
  · have new : ∀ j, (solutionBegun store i s s₁).kb.upcoming j ≠ s₁.kb.upcoming 0 := fun j same =>
      Nat.succ_ne_zero j (s₁.kb.upcoming_injective same)
    have below : ∀ rel ∈ rels, rel.startNode = s₁.kb.upcoming 0 := fun rel member =>
      of_decide_eq_true (List.filter_eq_self.mp kept rel member)
    exact own_of_howToRelationships new below
  · rw [← keys]
    exact KB.nodup_of_length_le here perm (all.trans_le children)

/-- A HowTo that has been stored is found by the number of its node. -/
theorem node_of_howTo {node : Node}
    (member : node ∈ store.howToNodes (solutionBegun store i s s₁) (solution store i).resources) :
    t.kb.node node.id = node := by
  refine KB.node_of_added stored.gains.nodes (fun other inside => ?_) ?_ member
  · obtain ⟨j, -, rfl⟩ := List.mem_mapIdx.mp inside
    exact KB.not_hasNode_upcoming _ j
  · refine List.pairwise_iff_getElem.mpr fun j k _ _ less same => ?_
    simp only [IssueStore.howToNodes, List.getElem_map, List.getElem_mapIdx] at same
    exact less.ne ((solutionBegun store i s s₁).kb.upcoming_injective same)

/-- The HowTos are read from their nodes, each once, when they have been stored below the solution
under texts of their own. -/
theorem exists_loadChildrenList
    (own : ∀ x ∈ (solution store i).resources.dropLast,
      (store.howTo x).uri ≠ (solution store i).uri)
    (apart : ((solution store i).resources.map fun x =>
      (solutionBegun store i s s₁).textOf (store.howTo x).uri).Nodup) :
    ∃ entries : List (ℕ × ℕ), (entries.map Prod.fst).Perm (solution store i).resources ∧
      t.kb.loadChildrenList platform (some (s₁.kb.upcoming 0)) defaultLinkName =
        entries.map fun entry =>
          ⟨entry.2, store.howToProperties (solutionBegun store i s s₁).heap entry.1⟩ := by
  let numbered := (solution store i).resources.mapIdx fun j x =>
    (x, (solutionBegun store i s s₁).kb.upcoming j)
  let relationship : ℕ × ℕ → Relationship := fun entry => ⟨s₁.kb.upcoming 0, entry.2,
    defaultLinkName, (solutionBegun store i s s₁).textOf (store.howTo entry.1).uri⟩
  have rels : store.howToRelationships (solutionBegun store i s s₁) (solution store i).uri
      (s₁.kb.upcoming 0) (solution store i).resources = numbered.map relationship :=
    howToRelationships_eq_map own
  have perm := stored.perm_howTos
  have below : (numbered.map relationship).filter (fun rel => rel.startNode = s₁.kb.upcoming 0) =
      numbered.map relationship := by
    refine List.filter_eq_self.mpr fun rel member => ?_
    obtain ⟨entry, -, rfl⟩ := List.mem_map.mp member
    exact decide_eq_true rfl
  rw [rels, below] at perm
  have present : t.kb.HasNode (s₁.kb.upcoming 0) := by
    rw [KB.HasNode, stored.nodes, List.map_append]
    exact List.mem_append_right _ List.mem_cons_self
  have keys : (numbered.map relationship).map Relationship.key =
      (solution store i).resources.map fun x =>
        (solutionBegun store i s s₁).textOf (store.howTo x).uri := by
    rw [← rels]
    exact map_key_howToRelationships _
  obtain ⟨rels', arranged, same⟩ := KB.exists_loadChildrenList present perm (keys ▸ apart)
  obtain ⟨entries, order, rfl⟩ := exists_perm_of_perm_map arranged
  refine ⟨entries, ?_, ?_⟩
  · have first : numbered.map Prod.fst = (solution store i).resources :=
      List.ext_getElem (by simp [numbered]) fun j _ _ => by simp [numbered]
    exact first ▸ order.map Prod.fst
  · rw [same, List.map_map]
    refine List.map_congr_left fun entry member => ?_
    obtain ⟨j, inside, rfl⟩ := List.mem_mapIdx.mp (order.mem_iff.mp member)
    exact stored.node_of_howTo (List.mem_mapIdx.mpr ⟨j, inside, rfl⟩)

end StoredPlain

end SolvedIssue

end ThinkingUnderstanding
