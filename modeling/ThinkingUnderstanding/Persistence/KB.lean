import ThinkingUnderstanding.Model.Generalisation

/-!
# The knowledge base

The knowledge base is a graph of nodes with properties and of relationships with a type and
a key. A resource is stored as the end of a relationship; it is found again by the node the
relationship starts from, its type and its key. Nothing is ever changed or removed.

The numbers of nodes come from the database, which gives none twice. They are taken as an
arbitrary sequence, which is part of the state; that a number still to come is not in use, that
relationships join nodes that exist, and that there is a reference node, are
fields of the structure.

## Main definitions

* `KB` — the nodes and relationships
* `KB.createNode`, `KB.createRelationshipTo` — the two ways in which it grows
* `KB.getNodeById`, `KB.relationshipsOf` — how it is read
-/

namespace ThinkingUnderstanding

/-- The identity of an object of one of the classes that are saved. -/
inductive ResourceRef
  | concept (c : ConceptRef)
  | phrase (p : PhraseRef)
  | link (l : LinkRef)
  | network (n : NetworkRef)
  deriving DecidableEq, Repr

/-- The properties of a node, each of which it may lack. A number is kept as the number and
not as its text; the name of the class, which no `load` reads, is left out. -/
structure Properties where
  namespace_ : Option String := none
  uriName : Option String := none
  revision : Option String := none
  frequency : Option ℚ := none
  confidence : Option ℚ := none
  content : Option String := none
  text : Option String := none
  index : Option String := none
  deriving DecidableEq, Repr, Inhabited

/-- A node. With its number under `KB_ID`, it is also the map that a `load` reads. -/
structure Node where
  id : ℕ
  properties : Properties := {}
  deriving DecidableEq, Repr, Inhabited

/-- A relationship, with the value of its property `key`. -/
structure Relationship where
  startNode : ℕ
  endNode : ℕ
  type : String
  key : String
  deriving DecidableEq, Repr, Inhabited

/-- `KB.getRootId`, the number of the reference node. -/
def KB.rootId : ℕ := 0

/-- The knowledge base. -/
structure KB where
  nodes : List Node
  relationships : List Relationship
  /-- The numbers of the nodes that are created next. -/
  upcoming : ℕ → ℕ
  upcoming_injective : Function.Injective upcoming
  upcoming_fresh : ∀ i, upcoming i ∉ nodes.map Node.id
  joined : ∀ rel ∈ relationships,
    rel.startNode ∈ nodes.map Node.id ∧ rel.endNode ∈ nodes.map Node.id
  hasRoot : KB.rootId ∈ nodes.map Node.id

namespace KB

/-- The knowledge base with the reference node only, whose nodes will be numbered in order. -/
def onlyRoot : KB where
  nodes := [⟨rootId, {}⟩]
  relationships := []
  upcoming := Nat.succ
  upcoming_injective := Nat.succ_injective
  upcoming_fresh := by simp [rootId]
  joined := List.forall_mem_nil _
  hasRoot := List.mem_singleton.mpr rfl

variable (kb : KB)

/-- The number is that of a node. -/
def HasNode (id : ℕ) : Prop := id ∈ kb.nodes.map Node.id

instance (id : ℕ) : Decidable (kb.HasNode id) := List.instDecidableMemOfLawfulBEq ..

/-- `createNode`, with the properties that are set on the new node. -/
def createNode (properties : Properties) : KB where
  nodes := kb.nodes ++ [⟨kb.upcoming 0, properties⟩]
  relationships := kb.relationships
  upcoming i := kb.upcoming (i + 1)
  upcoming_injective i j same := Nat.succ_injective (kb.upcoming_injective same)
  upcoming_fresh i := by
    rw [List.map_append, List.mem_append, not_or]
    refine ⟨kb.upcoming_fresh (i + 1), fun again => ?_⟩
    have same := kb.upcoming_injective (List.mem_singleton.mp again)
    omega
  joined rel member := by
    rw [List.map_append]
    obtain ⟨starts, ends⟩ := kb.joined rel member
    exact ⟨List.mem_append_left _ starts, List.mem_append_left _ ends⟩
  hasRoot := by
    rw [List.map_append]
    exact List.mem_append_left _ kb.hasRoot

/-- `createRelationshipTo`, between two nodes. -/
def createRelationshipTo (startNode endNode : {id // kb.HasNode id}) (type key : String) :
    KB where
  nodes := kb.nodes
  relationships := kb.relationships ++ [⟨startNode, endNode, type, key⟩]
  upcoming := kb.upcoming
  upcoming_injective := kb.upcoming_injective
  upcoming_fresh := kb.upcoming_fresh
  joined rel member := by
    rcases List.mem_append.mp member with old | new
    · exact kb.joined rel old
    · rw [List.mem_singleton.mp new]
      exact ⟨startNode.2, endNode.2⟩
  hasRoot := kb.hasRoot

/-- `N4JKB.getNodeById`: the reference node stands in for a node that does not exist. -/
def getNodeById (id : Option ℕ) : {id // kb.HasNode id} :=
  match id with
  | some id => if present : kb.HasNode id then ⟨id, present⟩ else ⟨rootId, kb.hasRoot⟩
  | none => ⟨rootId, kb.hasRoot⟩

/-- The node with a number. -/
def node (id : ℕ) : Node := (kb.nodes.find? fun node => node.id = id).getD ⟨id, {}⟩

/-- `getRelationships(relationType)` of a node: those that start or end at it. -/
def relationshipsOf (id : ℕ) (type : String) : List Relationship :=
  kb.relationships.filter fun rel => (rel.startNode = id ∨ rel.endNode = id) ∧ rel.type = type

variable {kb}

@[simp] theorem nodes_createNode (properties : Properties) :
    (kb.createNode properties).nodes = kb.nodes ++ [⟨kb.upcoming 0, properties⟩] := rfl

@[simp] theorem relationships_createNode (properties : Properties) :
    (kb.createNode properties).relationships = kb.relationships := rfl

@[simp] theorem nodes_createRelationshipTo (startNode endNode : {id // kb.HasNode id})
    (type key : String) :
    (kb.createRelationshipTo startNode endNode type key).nodes = kb.nodes := rfl

@[simp] theorem relationships_createRelationshipTo (startNode endNode : {id // kb.HasNode id})
    (type key : String) :
    (kb.createRelationshipTo startNode endNode type key).relationships =
      kb.relationships ++ [⟨startNode, endNode, type, key⟩] := rfl

theorem HasNode.createNode {id : ℕ} (present : kb.HasNode id) (properties : Properties) :
    (kb.createNode properties).HasNode id := by
  unfold HasNode
  rw [nodes_createNode, List.map_append]
  exact List.mem_append_left _ present

theorem hasNode_upcoming (properties : Properties) :
    (kb.createNode properties).HasNode (kb.upcoming 0) := by
  unfold HasNode
  rw [nodes_createNode, List.map_append]
  exact List.mem_append_right _ (List.mem_singleton.mpr rfl)

theorem getNodeById_of_hasNode {id : ℕ} (present : kb.HasNode id) :
    kb.getNodeById (some id) = ⟨id, present⟩ := dif_pos present

theorem mem_relationshipsOf {id : ℕ} {type : String} {rel : Relationship} :
    rel ∈ kb.relationshipsOf id type ↔
      rel ∈ kb.relationships ∧ (rel.startNode = id ∨ rel.endNode = id) ∧ rel.type = type := by
  rw [relationshipsOf, List.mem_filter, decide_eq_true_eq]

theorem id_node (kb : KB) (id : ℕ) : (kb.node id).id = id := by
  unfold node
  cases found : kb.nodes.find? fun node => node.id = id with
  | none => rfl
  | some node =>
    have same := List.find?_some found
    exact of_decide_eq_true same

theorem node_injective (kb : KB) : Function.Injective kb.node := by
  intro i j same
  have ids := congrArg Node.id same
  rwa [kb.id_node, kb.id_node] at ids

end KB

end ThinkingUnderstanding
