import ThinkingUnderstanding.Simulation.Simulation

/-!
# Parents that were never saved

A call of the knowledge base is given its parent as a resource, which is converted
implicitly to the number of a node. `createLink` raises an exception for a number that is not
that of a node. The other calls note an error in the log and go on with the reference node, as they
do for a resource without a number; and a number that was drawn for an instance may be that of
any node.

So a save below a resource that was never saved always links to another node, and a load
finds nothing only when that node has nothing of the type.

## Main definitions

* `KBCall` — the calls that are given a parent
* `World.NeverSaved` — the parents that no node was made for
* `NothingAttached` — what a call should do for such a parent
* `KBCall.FindsNothing` — when it does so

## Main results

* `World.NeverSaved.getNodeById_eq` — the node that stands in for such a parent
* `KBCall.nothingAttached_iff` — a call does so exactly when it is a load that finds nothing
-/

namespace ThinkingUnderstanding

open Math Semantics

/-- A call of `N4JKB` that is given a parent. -/
inductive KBCall
  | saveResource (child : ResourceRef) (key linkType : String)
  | loadChild (key linkType : String)
  | loadChildrenMap (linkType : String)
  | loadChildrenList (linkType : String)

/-- What a call returns. A save that returns has succeeded. -/
inductive KBAnswer
  | saved
  | child (map : Option Node)
  | childrenMap (children : InsertionMap String Node)
  | childrenList (children : List Node)

/-- The empty results. -/
def KBAnswer.IsEmpty : KBAnswer → Prop
  | saved => False
  | child map => map = none
  | childrenMap children => children.entries = []
  | childrenList children => children = []

/-- A call whose parent is a resource: the `KBNodeId` is made of it by an implicit conversion. -/
def KBCall.perform (platform : Platform) (call : KBCall) (parent : ResourceRef) :
    KBProgram KBAnswer := do
  let parentId ← KBMap.get parent
  match call with
  | saveResource child key linkType =>
      N4JKB.saveResource child parentId key linkType
      return .saved
  | loadChild key linkType =>
      return .child ((← get).kb.loadChild platform parentId key linkType)
  | loadChildrenMap linkType =>
      return .childrenMap ((← get).kb.loadChildrenMap platform parentId linkType)
  | loadChildrenList linkType =>
      return .childrenList ((← get).kb.loadChildrenList platform parentId linkType)

/-- The numbers that a `Long` can hold. -/
def longLimit : ℕ := 2 ^ 63

/-- No node was made for the resource: it has no uid, or the one drawn for an instance, or
its uid is a number without a node. -/
def World.NeverSaved (s : World) (r : ResourceRef) : Prop :=
  s.heap.uid r = "" ∨
  (∃ n < instanceIdRandomSeed, s.heap.uid r = toString n ∧ ∀ id, s.id2object id ≠ some r) ∨
  ∃ n < longLimit, s.heap.uid r = toString n ∧ ¬ s.kb.HasNode n

/-- The call fails or returns an empty result, and links nothing. -/
def NothingAttached (kb : KB) : EStateM.Result KBFailure World KBAnswer → Prop
  | .error _ s => s.kb = kb
  | .ok answer s => answer.IsEmpty ∧ s.kb = kb

/-- A load that finds nothing at a node. A map of children leaves out the node itself. -/
def KBCall.FindsNothing (kb : KB) (node : ℕ) : KBCall → Prop
  | saveResource _ _ _ => False
  | loadChild key linkType =>
      ∀ rel ∈ kb.relationshipsOf node linkType, rel.key ≠ key
  | loadChildrenMap linkType | loadChildrenList linkType =>
      ∀ rel ∈ kb.relationshipsOf node linkType, rel.endNode = node

namespace World.NeverSaved

variable {s : World} {r : ResourceRef}

theorem validUid (never : s.NeverSaved r) : ValidUid (s.heap.uid r) := by
  rcases never with none | ⟨n, -, same, -⟩ | ⟨n, -, same, -⟩
  · exact Or.inl none
  · exact Or.inr ⟨n, same⟩
  · exact Or.inr ⟨n, same⟩

/-- The node that stands in for a parent that was never saved is the reference node, or one
that has the number of an instance by chance. -/
theorem getNodeById_eq (never : s.NeverSaved r) :
    s.kb.getNodeById (KBMap.number (s.heap.uid r)) = KB.rootId ∨
      ∃ n < instanceIdRandomSeed, s.heap.uid r = toString n ∧ s.kb.HasNode n ∧
        s.kb.getNodeById (KBMap.number (s.heap.uid r)) = n := by
  rcases never with none | ⟨n, drawn, same, -⟩ | ⟨n, -, same, missing⟩
  · exact Or.inl (by rw [none]; rfl)
  · rw [same, KBMap.number_toString]
    by_cases present : s.kb.HasNode n
    · rw [KB.getNodeById_of_hasNode present]
      exact Or.inr ⟨n, drawn, rfl, present, rfl⟩
    · exact Or.inl (by rw [KB.getNodeById, dif_neg present])
  · rw [same, KBMap.number_toString]
    exact Or.inl (by rw [KB.getNodeById, dif_neg missing])

end World.NeverSaved

namespace KB

variable {platform : Platform} {kb : KB} {parent : Option ℕ} {key linkType : String}

theorem loadChild_eq_none_iff : kb.loadChild platform parent key linkType = none ↔
    ∀ rel ∈ kb.relationshipsOf (kb.getNodeById parent) linkType, rel.key ≠ key := by
  rw [loadChild, Option.map_eq_none_iff, List.find?_eq_none]
  constructor
  · intro nowhere rel related same
    exact nowhere rel ((platform.order_perm _).mem_iff.mpr related) (decide_eq_true same)
  · intro nowhere rel listed same
    exact nowhere rel ((platform.order_perm _).mem_iff.mp listed) (of_decide_eq_true same)

theorem entries_loadChildrenMap_eq_nil_iff :
    (kb.loadChildrenMap platform parent linkType).entries = [] ↔
      ∀ rel ∈ kb.relationshipsOf (kb.getNodeById parent) linkType,
        rel.endNode = kb.getNodeById parent := by
  have listed_iff (rel : Relationship) :
      rel ∈ (platform.order (kb.relationshipsOf (kb.getNodeById parent) linkType)).filter
          (fun rel => rel.endNode ≠ (kb.getNodeById parent : ℕ)) ↔
        rel ∈ kb.relationshipsOf (kb.getNodeById parent) linkType ∧
          rel.endNode ≠ kb.getNodeById parent := by
    rw [List.mem_filter, (platform.order_perm _).mem_iff, decide_eq_true_eq]
  constructor
  · intro none rel related
    by_contra other
    -- the end of the relationship is entered under its key
    have entered := List.mem_map_of_mem (f := fun rel => (rel.key, kb.node rel.endNode))
      ((listed_iff rel).mpr ⟨related, other⟩)
    obtain ⟨child, held⟩ := InsertionMap.exists_mem_entries_ofList entered
    exact List.not_mem_nil (none ▸ held)
  · intro nothing
    refine List.eq_nil_iff_forall_not_mem.mpr fun entry member => ?_
    obtain ⟨rel, listed, -⟩ := List.mem_map.mp (InsertionMap.mem_of_mem_entries_ofList member)
    obtain ⟨related, other⟩ := (listed_iff rel).mp listed
    exact other (nothing rel related)

/-- The list of children is empty when the map is. -/
theorem loadChildrenList_eq_nil_iff : kb.loadChildrenList platform parent linkType = [] ↔
    (kb.loadChildrenMap platform parent linkType).entries = [] := by
  rw [List.eq_nil_iff_forall_not_mem, List.eq_nil_iff_forall_not_mem]
  constructor
  · rintro unlisted ⟨key, child⟩ entry
    exact unlisted child (mem_loadChildrenList.mpr ⟨key, InsertionMap.get?_eq_some_iff.mpr entry⟩)
  · intro unfiled child listed
    obtain ⟨key, filed⟩ := mem_loadChildrenList.mp listed
    exact unfiled (key, child) (InsertionMap.get?_eq_some_iff.mp filed)

end KB

/-- Below a resource that was never saved, nothing is linked and nothing is read exactly by the
loads that find nothing at the node that stands in for it. -/
theorem KBCall.nothingAttached_iff (platform : Platform) (s : World) (parent : ResourceRef)
    (never : s.NeverSaved parent) (call : KBCall) :
    NothingAttached s.kb ((call.perform platform parent).run s) ↔
      call.FindsNothing s.kb (s.kb.getNodeById (KBMap.number (s.heap.uid parent))) := by
  have converted := KBMap.run_get never.validUid
  cases call with
  | saveResource child key linkType =>
    refine iff_of_false (fun attached => ?_) id
    rw [perform, EStateM.run_bind, converted] at attached
    exact attached.1
  | loadChild key linkType =>
    rw [perform, EStateM.run_bind, converted]
    exact (and_iff_left rfl).trans KB.loadChild_eq_none_iff
  | loadChildrenMap linkType =>
    rw [perform, EStateM.run_bind, converted]
    exact (and_iff_left rfl).trans KB.entries_loadChildrenMap_eq_nil_iff
  | loadChildrenList linkType =>
    rw [perform, EStateM.run_bind, converted]
    exact (and_iff_left rfl).trans
      (KB.loadChildrenList_eq_nil_iff.trans KB.entries_loadChildrenMap_eq_nil_iff)

/-! ### A concept that was not saved as a parent -/

/-- A load below a concept that was never saved, when the reference node has no relationships. -/
theorem unsaved_parent_without_children :
    NothingAttached twoConcepts.kb
      (((KBCall.loadChildrenMap generalisationLinkName).perform .plain (.concept 0)).run
        twoConcepts) :=
  (KBCall.nothingAttached_iff .plain twoConcepts (.concept 0) (Or.inl (by decide +kernel))
    (.loadChildrenMap generalisationLinkName)).mpr (by
      intro rel related
      exact absurd (KB.mem_relationshipsOf.mp related).1 List.not_mem_nil)

/-- A concept that is saved below one that was never saved is linked to the reference node. -/
theorem unsaved_parent_is_root :
    twoConcepts.NeverSaved (.concept 0) ∧
    ¬ NothingAttached twoConcepts.kb
      (((KBCall.saveResource (.concept 1) "child" generalisationLinkName).perform .plain
        (.concept 0)).run twoConcepts) ∧
    (finalState (((KBCall.saveResource (.concept 1) "child" generalisationLinkName).perform .plain
      (.concept 0)).run twoConcepts)).kb.relationships =
        [⟨KB.rootId, 1, generalisationLinkName, "child"⟩] := by
  refine ⟨Or.inl (by decide +kernel), fun attached => ?_, by decide +kernel⟩
  exact attached.1

end ThinkingUnderstanding
