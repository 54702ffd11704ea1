import ThinkingUnderstanding.Persistence.IssueNetworks
import ThinkingUnderstanding.Persistence.KBAdapter

/-!
# The store of solutions after one has been added

A solved issue whose HowTos have no parameters is stored below the reference node. The nodes that
were there are read as before by the types of solved issues, and the table still has their networks.
When the texts of the URIs of the stored issues are different from each other, and from that of the
new one, exactly one node is added to those of which the solutions are made.

## Main results

* `SolvedIssue.StoredPlain.readsAs_old` — the solved issues that were there are read as before
* `SolvedIssue.StoredPlain.perm_children` — one node is added to those that are read
* `SolvedIssue.StoredPlain.hasNetwork_new` — the table has the network of the new solved issue
-/

namespace ThinkingUnderstanding

open Math Semantics Reporting

/-- The types by which what a solved issue is loaded from is linked. -/
def solutionTypes : List String :=
  [conceptsNetworkName, solutionName, defaultLinkName, conceptsLinkName]

theorem solutionTypes_apart : ∀ type ∈ solutionTypes, type ∉ graphTypes := by decide

/-- With texts of their own, all stored solved issues are read. -/
theorem KB.perm_loadChildrenList_solutions {kb : KB} (platform : Platform)
    (apart : (kb.storedSolutions.map Relationship.key).Nodup) :
    (kb.loadChildrenList platform (some rootId) solutionsName).Perm
      (kb.storedSolutions.map fun rel => kb.node rel.endNode) := by
  obtain ⟨rels, perm, same⟩ := KB.exists_loadChildrenList kb.hasRoot
    ((platform.order_perm (kb.relationshipsOf rootId solutionsName)).filter
      fun rel => rel.endNode ≠ rootId) apart
  rw [same]
  exact perm.map _

/-- The reference node. -/
def KB.root (kb : KB) : {id // kb.HasNode id} := ⟨rootId, kb.hasRoot⟩

namespace SolvedIssue.StoredPlain

variable {platform : Platform} {store : IssueStore} {stack i : ℕ} {key : String} {s s₁ t : World}
  (stored : StoredPlain platform store stack i KB.rootId key solutionsName s s₁ t)

include stored

/-- The solved issue is stored below a node that is there. -/
theorem atRoot : StoredPlain platform store stack i s.kb.root key solutionsName s s₁ t := stored

theorem nodes_prefix : s.kb.nodes <+: t.kb.nodes := by
  refine stored.network.nodes_prefix.trans ?_
  have nodes := stored.atRoot.nodes
  rw [nodes]
  exact List.prefix_append _ _

/-- All relationships that have been added, of the types of solved issues. -/
theorem relationshipsOf_eq {type : String} (other : type ∉ graphTypes) (id : ℕ) :
    t.kb.relationshipsOf id type = s.kb.relationshipsOf id type ++
      (⟨KB.rootId, s.kb.upcoming 0, solutionsName, key⟩ ::
        ⟨s.kb.upcoming 0, s.kb.upcoming 1, conceptsNetworkName, ""⟩ ::
        addedRelationships store i s s₁).filter fun rel =>
          (rel.startNode = id ∨ rel.endNode = id) ∧ rel.type = type := by
  have relationships := stored.atRoot.relationships
  rw [KB.relationshipsOf_append relationships, stored.network.relationshipsOf_eq other,
    KB.getNodeById_of_hasNode s.kb.hasRoot, List.append_assoc, ← List.filter_append]
  rfl

/-- What is added after the network is between new nodes. -/
theorem new_of_added {rel : Relationship} (new : rel ∈ addedRelationships store i s s₁) :
    ¬ s.kb.HasNode rel.startNode ∧ ¬ s.kb.HasNode rel.endNode := by
  have fresh : ∀ j, ¬ s.kb.HasNode (s₁.kb.upcoming j) := fun j present =>
    s₁.kb.not_hasNode_upcoming j (KB.hasNode_of_prefix stored.network.nodes_prefix present)
  rcases List.mem_cons.mp new with rfl | later
  · exact ⟨s.kb.not_hasNode_upcoming 0, fresh 0⟩
  · obtain ⟨-, starts, j, ends⟩ := forall_howToRelationships _ rel later
    have next : ∀ j, (solutionBegun store i s s₁).kb.upcoming j = s₁.kb.upcoming (j + 1) :=
      fun _ => rfl
    refine ⟨?_, by rw [ends, next]; exact fresh _⟩
    rcases starts with same | ⟨j', same⟩
    · rw [same]
      exact fresh 0
    · rw [same, next]
      exact fresh _

/-- The solved issues that were there are read as before. -/
theorem readsAs_old : t.kb.ReadsAs s.kb solutionTypes where
  hasNode _ present := KB.hasNode_of_prefix stored.nodes_prefix present
  node _ present := KB.node_of_prefix stored.nodes_prefix present
  relationshipsOf id type present member := by
    rw [stored.relationshipsOf_eq (solutionTypes_apart type member), List.append_right_eq_self,
      List.filter_eq_nil_iff]
    intro rel new here
    obtain ⟨ends, same⟩ := of_decide_eq_true here
    rcases List.mem_cons.mp new with rfl | new
    · have apart : solutionsName ∉ solutionTypes := by decide
      have here : type = solutionsName := same.symm
      exact apart (here ▸ member)
    rcases List.mem_cons.mp new with rfl | new
    · rcases ends with rfl | rfl
      · exact s.kb.not_hasNode_upcoming 0 present
      · exact s.kb.not_hasNode_upcoming 1 present
    · obtain ⟨starts, ends'⟩ := stored.new_of_added new
      rcases ends with rfl | rfl
      · exact starts present
      · exact ends' present

/-- One solved issue has been stored. -/
theorem storedSolutions_eq : t.kb.storedSolutions =
    s.kb.storedSolutions ++ [⟨KB.rootId, s.kb.upcoming 0, solutionsName, key⟩] := by
  have others : (addedRelationships store i s s₁).filter (fun rel =>
      (rel.startNode = KB.rootId ∨ rel.endNode = KB.rootId) ∧ rel.type = solutionsName) = [] := by
    refine List.filter_eq_nil_iff.mpr fun rel new here => ?_
    have same := (of_decide_eq_true here).2
    rcases type_of_added new with type | type
    · exact absurd (type.symm.trans same) (by decide)
    · exact absurd (type.symm.trans same) (by decide)
  have new : s.kb.upcoming 0 ≠ KB.rootId := fun same =>
    s.kb.not_hasNode_upcoming 0 (same ▸ s.kb.hasRoot)
  rw [KB.storedSolutions, stored.relationshipsOf_eq (by decide), List.filter_cons_of_pos (by simp),
    List.filter_cons_of_neg (by simp [show conceptsNetworkName ≠ solutionsName by decide]), others,
    List.filter_append, List.filter_cons_of_pos (by simpa using new)]
  rfl

/-- One node has been added to those that are read. -/
theorem perm_children (apart : (s.kb.storedSolutions.map Relationship.key ++ [key]).Nodup) :
    (t.kb.loadChildrenList platform (some KB.rootId) solutionsName).Perm
      (t.kb.node (s.kb.upcoming 0) ::
        s.kb.loadChildrenList platform (some KB.rootId) solutionsName) := by
  have here := stored.storedSolutions_eq
  have old := KB.perm_loadChildrenList_solutions platform (List.Nodup.of_append_left apart)
  have new : (t.kb.storedSolutions.map Relationship.key).Nodup := by
    rw [here, List.map_append]
    exact apart
  have same : (s.kb.storedSolutions.map fun rel => t.kb.node rel.endNode) =
      s.kb.storedSolutions.map fun rel => s.kb.node rel.endNode := by
    refine List.map_congr_left fun rel member => stored.readsAs_old.node _ ?_
    exact (s.kb.joined rel (KB.mem_relationshipsOf.mp (List.mem_of_mem_filter member)).1).2
  refine (KB.perm_loadChildrenList_solutions platform new).trans ?_
  rw [here, List.map_append, same]
  exact List.perm_append_comm.trans (old.symm.cons _)

/-- The table still has the networks of the solved issues that were there. -/
theorem hasNetwork_old {map : Node} {n : NetworkRef} (present : s.kb.HasNode map.id)
    (known : s.HasNetwork platform map n) : t.HasNetwork platform map n := by
  obtain ⟨m, found, accepted, cached⟩ := known
  refine ⟨m, ?_, accepted, ?_⟩
  · rw [stored.readsAs_old.loadChild platform present (by decide), found]
  · rw [stored.gains.id2object]
    exact stored.network.id2object_old (KB.hasNode_of_loadChild found) cached

/-- Their HowTos are read as before. -/
theorem howToMaps_old {map : Node} (present : s.kb.HasNode map.id) :
    t.kb.howToMaps platform map = s.kb.howToMaps platform map := by
  have alike := stored.readsAs_old
  rw [KB.howToMaps, KB.howToMaps, alike.loadChild platform present (by decide)]
  cases found : s.kb.loadChild platform (some map.id) "" solutionName with
  | none =>
    -- the children of the reference node are read instead
    have root : ∀ kb : KB, kb.loadChildrenList platform none defaultLinkName =
        kb.loadChildrenList platform (some KB.rootId) defaultLinkName := by
      intro kb
      simp only [KB.loadChildrenList, KB.childKeys, KB.loadChildrenMap,
        KB.getNodeById_of_hasNode kb.hasRoot]
      rfl
    rw [Option.map_none, root, root]
    exact alike.loadChildrenList platform s.kb.hasRoot (by decide)
  | some m => exact alike.loadChildrenList platform (KB.hasNode_of_loadChild found) (by decide)

/-- What the save of the network has stored is still there. -/
theorem node_of_network {id : ℕ} (present : s₁.kb.HasNode id) : t.kb.node id = s₁.kb.node id := by
  have nodes := stored.atRoot.nodes
  exact KB.node_of_prefix (nodes ▸ List.prefix_append _ _) present

/-- The only network below the new solved issue is its own. -/
theorem relationshipsOf_network :
    t.kb.relationshipsOf (s.kb.upcoming 0) conceptsNetworkName =
      [⟨s.kb.upcoming 0, s.kb.upcoming 1, conceptsNetworkName, ""⟩] := by
  have others : (addedRelationships store i s s₁).filter (fun rel =>
      (rel.startNode = s.kb.upcoming 0 ∨ rel.endNode = s.kb.upcoming 0) ∧
        rel.type = conceptsNetworkName) = [] := by
    refine List.filter_eq_nil_iff.mpr fun rel new here => ?_
    have same := (of_decide_eq_true here).2
    rcases type_of_added new with type | type
    · exact absurd (type.symm.trans same) (by decide)
    · exact absurd (type.symm.trans same) (by decide)
  rw [stored.relationshipsOf_eq (by decide),
    KB.relationshipsOf_of_absent (s.kb.not_hasNode_upcoming 0),
    List.filter_cons_of_neg (by simp [show solutionsName ≠ conceptsNetworkName by decide]),
    List.filter_cons_of_pos (by simp), others]
  rfl

/-- The table has the network of the new solved issue. -/
theorem hasNetwork_new (readable : platform.acceptsURI
      { s.heap.uri (s.heap.network (store.solvedIssue i).issue).uri with
        uid := toString (s.kb.upcoming 1) }.format) :
    t.HasNetwork platform (t.kb.node (s.kb.upcoming 0)) (store.solvedIssue i).issue := by
  have here := stored.network.hasNode_network
  refine ⟨t.kb.node (s.kb.upcoming 1), ?_, ?_, ?_⟩
  · rw [KB.id_node]
    have only := stored.relationshipsOf_network
    refine KB.loadChild_of_unique ⟨s.kb.upcoming 0, s.kb.upcoming 1, conceptsNetworkName, ""⟩
      (stored.atRoot.hasNode stored.network.hasNode_issue) ?_ rfl
      fun rel member _ => ?_
    · rw [only]
      exact List.mem_cons_self
    · rw [only] at member
      exact List.mem_singleton.mp member
  · rw [stored.node_of_network here, stored.network.node_network]
    exact readable
  · rw [KB.id_node, stored.gains.id2object]
    exact stored.network.id2object_network

end SolvedIssue.StoredPlain

end ThinkingUnderstanding
