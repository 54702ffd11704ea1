import ThinkingUnderstanding.Persistence.Growth
import ThinkingUnderstanding.Persistence.StoredSolutions

/-!
# The network of a solved issue that has been saved

The network of a solved issue is saved with a list buffer of its own, so that it is always stored
as a new node, whatever uid it had. The table has it for this node from then on. What
it is made of is linked by other types than those by which solved issues, their networks and their
solutions are linked; so the relationships of these types are known.

## Main results

* `exists_store_of_saveAnew` — a network that is saved by itself is stored as a new node
* `SolvedIssue.SavesNetwork.id2object_network` — the table has the network for its node
* `SolvedIssue.SavesNetwork.relationshipsOf_eq` — the relationships of the types of solved issues
-/

namespace ThinkingUnderstanding

open Math Semantics

/-! ### Networks that are saved by themselves -/

section Alone

variable {types : List String} {P : KB → Prop} {platform : Platform}

/-- A property that is kept by new nodes and relationships of the types is kept by a save. -/
theorem keeps_save (store : IssueStore) (kept : KB.Kept types P) (all : graphTypes ⊆ types)
    (stack : ℕ) (r : ResourceRef) (parent : Option ℕ) (key : String) {linkType : String}
    (member : linkType ∈ types) :
    Maintains (fun w => P w.kb) (save platform stack r parent key linkType) fun _ => True := by
  intro w holds
  refine ⟨?_, fun _ _ _ => trivial⟩
  have alike := Reporting.forgets_save platform store stack [] r parent key linkType
  have recorded : Maintains (fun w => P w.kb)
      (Reporting.save platform (.n4jkb store) store stack [] (.graph r) parent key linkType)
      fun _ => True :=
    Reporting.maintains_save kept stack [] (.graph r) parent key linkType all member
  have same := alike.finalState_run { w with log := [] }
  change P (finalState ((save platform stack r parent key linkType).run
    ({ w with log := [] } : RecordedWorld).toWorld)).kb
  rw [same]
  exact recorded.keeps (s := { w with log := [] }) holds

/-- So it is kept when the children of a resource are saved. -/
theorem keeps_forM_saveChild (store : IssueStore) (kept : KB.Kept graphTypes P) (stack : ℕ)
    (heap : Heap) (r : ResourceRef) :
    Maintains (fun w => P w.kb)
      (forM (heap.children r) (saveChild platform (save platform stack) r)) fun _ => True := by
  refine Maintains.forM _ fun child edge => ?_
  refine (Reporting.maintains_get_resource r).bind fun this _ => ?_
  refine (Reporting.maintains_keyText child).bind fun key _ => ?_
  exact keeps_save store kept (List.Subset.refl _) stack child.resource this key
    (Heap.linkType_mem_graphTypes edge)

variable {stack : ℕ} {n : NetworkRef} {parent : Option ℕ} {key linkType : String} {w s₁ : World}

/-- A network that is saved with an empty list is stored as a new node, and then its children are
saved. -/
theorem exists_store_of_saveAnew
    (run : (saveAnew platform stack (.network n) parent key linkType).run w = .ok () s₁) :
    ∃ (m : World) (depth : ℕ),
      m.kb = w.kb.addChild (w.heap.exported (.network n)) parent linkType key ∧
      m.id2object = Function.update w.id2object (w.kb.upcoming 0) (some (.network n)) ∧
      (forM (m.heap.children (.network n))
        (saveChild platform (save platform depth) (.network n))).run m = .ok () s₁ := by
  obtain ⟨_, _, emptied, run⟩ := run_bind_eq_ok_iff.mp run
  cases emptied
  cases stack with
  | zero => cases run
  | succ depth =>
    obtain ⟨refObject, _, got, run⟩ := run_bind_eq_ok_iff.mp run
    rw [run_get_eq_ok got] at run
    obtain ⟨_, _, read, run⟩ := run_bind_eq_ok_iff.mp run
    cases read
    obtain ⟨known, _, checked, run⟩ := run_bind_eq_ok_iff.mp run
    rw [run_checkIfSaved_of_unsaved (Or.inr List.not_mem_nil)] at checked
    cases checked
    obtain ⟨_, _, stored, run⟩ := run_bind_eq_ok_iff.mp run
    cases stored
    obtain ⟨_, m, noted, run⟩ := run_bind_eq_ok_iff.mp run
    obtain ⟨_, _, read, run⟩ := run_bind_eq_ok_iff.mp run
    cases read
    rw [run_appendToSave] at noted
    · cases noted
      exact ⟨_, depth, rfl, rfl, run⟩
    · rw [Heap.uid_modifyURI_self]
      exact toString_nat_ne_empty _

end Alone

/-! ### Below a solved issue -/

theorem KB.node_of_prefix {kb kb' : KB} (nodes : kb.nodes <+: kb'.nodes) {id : ℕ}
    (present : kb.HasNode id) : kb'.node id = kb.node id := by
  obtain ⟨added, whole⟩ := nodes
  obtain ⟨node, there, same⟩ := List.mem_map.mp present
  have found : (kb.nodes.find? fun node => node.id = id).isSome :=
    List.find?_isSome.mpr ⟨node, there, decide_eq_true same⟩
  rw [KB.node, KB.node, ← whole, List.find?_append, Option.or_of_isSome found]

theorem KB.hasNode_of_prefix {kb kb' : KB} (nodes : kb.nodes <+: kb'.nodes) {id : ℕ}
    (present : kb.HasNode id) : kb'.HasNode id :=
  (nodes.map Node.id).subset present

namespace SolvedIssue.SavesNetwork

variable {platform : Platform} {store : IssueStore} {stack i : ℕ}
  {parent : Option ℕ} {key linkType : String} {s s₁ : World}
  (saves : SavesNetwork platform store stack i parent key linkType s s₁)

include saves

/-- The network has been stored, and then its children have been saved. -/
theorem exists_store : ∃ m : World,
    m.kb = (begun store i parent key linkType s).kb.addChild
      ((begun store i parent key linkType s).heap.exported (.network (store.solvedIssue i).issue))
      (some (s.kb.upcoming 0)) conceptsNetworkName "" ∧
    m.id2object = Function.update s.id2object (s.kb.upcoming 1)
      (some (.network (store.solvedIssue i).issue)) ∧
    World.Grows "" none m s₁ ∧
    ∀ type ∉ graphTypes, ∀ id, s₁.kb.relationshipsOf id type = m.kb.relationshipsOf id type := by
  obtain ⟨m, depth, kb, id2object, run⟩ := exists_store_of_saveAnew saves
  refine ⟨m, kb, id2object, ?_, fun type other => ?_⟩
  · have grows : World.Grows "" none m (finalState ((forM
        (m.heap.children (.network (store.solvedIssue i).issue)) (saveChild platform
          (save platform depth) (.network (store.solvedIssue i).issue))).run m)) :=
      respects_forM_saveChild _ m.heap
        (fun r parent key type => respects_save depth r parent key type) m
    rwa [run] at grows
  · exact (keeps_forM_saveChild store (KB.kept_relationshipsOf other m.kb) depth m.heap
      (.network (store.solvedIssue i).issue)).keeps_of_run run fun _ => rfl

/-- The table has the network for its node. -/
theorem id2object_network :
    s₁.id2object (s.kb.upcoming 1) = some (.network (store.solvedIssue i).issue) := by
  obtain ⟨m, kb, id2object, grows, -⟩ := saves.exists_store
  refine grows.kept _ _ ?_ ?_
  · rw [kb]
    exact KB.hasNode_addChild .. |>.mpr (Or.inr rfl)
  · rw [id2object, Function.update_self]

/-- For the nodes that there were, it has what it had. -/
theorem id2object_old {id : ℕ} {r : ResourceRef} (present : s.kb.HasNode id)
    (found : s.id2object id = some r) : s₁.id2object id = some r := by
  obtain ⟨m, kb, id2object, grows, -⟩ := saves.exists_store
  refine grows.kept _ _ ?_ ?_
  · rw [kb]
    exact KB.hasNode_addChild .. |>.mpr (Or.inl (KB.hasNode_addChild .. |>.mpr (Or.inl present)))
  · have old : id ≠ s.kb.upcoming 1 := fun same => s.kb.upcoming_fresh 1 (same ▸ present)
    rw [id2object, Function.update_of_ne old, found]

theorem hasNode_network : s₁.kb.HasNode (s.kb.upcoming 1) := by
  obtain ⟨m, kb, -, grows, -⟩ := saves.exists_store
  refine grows.hasNode ?_
  rw [kb]
  exact KB.hasNode_addChild .. |>.mpr (Or.inr rfl)

/-- The node of the network has its properties. -/
theorem node_network : s₁.kb.node (s.kb.upcoming 1) =
    ⟨s.kb.upcoming 1, s.heap.exported (.network (store.solvedIssue i).issue)⟩ := by
  obtain ⟨m, kb, -, grows, -⟩ := saves.exists_store
  have present : m.kb.HasNode (s.kb.upcoming 1) := by
    rw [kb]
    exact KB.hasNode_addChild .. |>.mpr (Or.inr rfl)
  rw [KB.node_of_prefix grows.nodes present, kb, (sameGraph_begun ..).exported_eq]
  exact KB.node_addChild_self ..

theorem nodes_prefix_begun : (begun store i parent key linkType s).kb.nodes <+: s₁.kb.nodes := by
  obtain ⟨m, kb, -, grows, -⟩ := saves.exists_store
  refine List.IsPrefix.trans ?_ grows.nodes
  rw [kb, KB.nodes_addChild]
  exact List.prefix_append _ _

theorem hasNode_issue : s₁.kb.HasNode (s.kb.upcoming 0) :=
  KB.hasNode_of_prefix saves.nodes_prefix_begun (KB.hasNode_addChild .. |>.mpr (Or.inr rfl))

theorem nodes_prefix : s.kb.nodes <+: s₁.kb.nodes :=
  List.IsPrefix.trans (List.prefix_append _ _) saves.nodes_prefix_begun

/-- The node of the issue has its properties. -/
theorem node_issue : s₁.kb.node (s.kb.upcoming 0) = ⟨s.kb.upcoming 0, Heap.exportedResource
    (s.heap.uri (store.solvedIssue i).uri) (store.solvedIssue i).probability⟩ := by
  rw [KB.node_of_prefix saves.nodes_prefix_begun (KB.hasNode_addChild .. |>.mpr (Or.inr rfl))]
  exact KB.node_addChild_self ..

/-- The relationships of the types of solved issues: the node of the issue and that of its network
have been added. -/
theorem relationshipsOf_eq {type : String} (other : type ∉ graphTypes) (id : ℕ) :
    s₁.kb.relationshipsOf id type = s.kb.relationshipsOf id type ++
      ([⟨s.kb.getNodeById parent, s.kb.upcoming 0, linkType, key⟩,
        ⟨s.kb.upcoming 0, s.kb.upcoming 1, conceptsNetworkName, ""⟩] : List Relationship).filter
          fun rel => (rel.startNode = id ∨ rel.endNode = id) ∧ rel.type = type := by
  obtain ⟨m, kb, -, -, same⟩ := saves.exists_store
  rw [same type other]
  refine KB.relationshipsOf_append ?_ id type
  have begins : (begun store i parent key linkType s).kb.HasNode (s.kb.upcoming 0) :=
    KB.hasNode_addChild .. |>.mpr (Or.inr rfl)
  rw [kb, KB.relationships_addChild, KB.getNodeById_of_hasNode begins]
  change (s.kb.addChild _ parent linkType key).relationships ++ _ = _
  rw [KB.relationships_addChild, List.append_assoc]
  rfl

end SolvedIssue.SavesNetwork

end ThinkingUnderstanding
