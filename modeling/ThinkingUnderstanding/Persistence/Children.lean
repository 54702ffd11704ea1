import ThinkingUnderstanding.Persistence.Load

/-!
# The children of a node

To the layers above it the knowledge base is a store of children: a resource is linked from a
node, under a key and a type, and the children of a node are read back by type, or one of
them by key and type. Below, a child is the end of a relationship, and relationships are
enumerated from both of their ends and filed by key.

What the calls have linked is recorded in a ledger, which the relationships refine. Reading the
children back gives the ledger's answer, in whatever order relationships are enumerated,
exactly when nothing of the type links to the node and every child has a key that is its own.

## Main definitions

* `ChildrenCall` — the calls that link a resource
* `ledger` — what a sequence of calls has linked
* `ChildrenKept` — the contract of `loadChildrenMap`, `loadChildrenList` and `loadChild`
* `OwnKeys` — the condition under which it is kept

## Main results

* `relationships_performAll` — the relationships are those of the ledger
* `childrenKept_iff` — the contract, for every order of enumeration
-/

namespace ThinkingUnderstanding

open Math Semantics

/-- A call that links a resource from a node. -/
inductive ChildrenCall
  | saveResource (child : ResourceRef) (parent : Option ℕ) (key linkType : String)
  | createLink (parent child : Option ℕ) (linkType key : String)

namespace ChildrenCall

/-- The state a call leaves, whether it returns or raises an exception. -/
def perform (s : World) : ChildrenCall → World
  | saveResource child parent key linkType =>
      finalState ((N4JKB.saveResource child parent key linkType).run s)
  | createLink parent child linkType key =>
      finalState ((N4JKB.createLink parent child linkType key).run s)

/-- What a call links. A resource is saved below the reference node when its parent does not
exist; a link is not made when one of its ends does not exist. -/
def links (kb : KB) : ChildrenCall → List Relationship
  | saveResource _ parent key linkType => [⟨kb.getNodeById parent, kb.upcoming 0, linkType, key⟩]
  | createLink parent child linkType key =>
      match kb.findNode parent, kb.findNode child with
      | some parentNode, some childNode => [⟨parentNode, childNode, linkType, key⟩]
      | _, _ => []

/-- The state a sequence of calls leaves. -/
def performAll (calls : List ChildrenCall) (s : World) : World := calls.foldl perform s

/-- What a sequence of calls has linked. -/
def ledger : List ChildrenCall → World → List Relationship
  | [], _ => []
  | call :: rest, s => call.links s.kb ++ ledger rest (call.perform s)

theorem relationships_perform (call : ChildrenCall) (s : World) :
    (call.perform s).kb.relationships = s.kb.relationships ++ call.links s.kb := by
  cases call with
  | saveResource child parent key linkType => rfl
  | createLink parent child linkType key =>
    simp only [perform, links, N4JKB.createLink, EStateM.run_bind, EStateM.run_get]
    cases s.kb.findNode parent with
    | none => simp
    | some parentNode =>
      cases s.kb.findNode child with
      | none => simp
      | some childNode => rfl

/-- Nothing that has been linked is lost below, and nothing else is there. -/
theorem relationships_performAll (calls : List ChildrenCall) (s : World) :
    (performAll calls s).kb.relationships = s.kb.relationships ++ ledger calls s := by
  induction calls generalizing s with
  | nil => simp [performAll, ledger]
  | cons call rest ih =>
    have later := ih (call.perform s)
    rw [relationships_perform, List.append_assoc] at later
    exact later

end ChildrenCall

/-- The relationship links a child from the node by the type. -/
def Relationship.LinksFrom (rel : Relationship) (n : ℕ) (linkType : String) : Prop :=
  rel.startNode = n ∧ rel.type = linkType

/-- The children of a node, read back by type or by key and type, are those that have been
linked from it. -/
structure ChildrenKept (platform : Platform) (kb : KB) (linked : List Relationship)
    (parent : Option ℕ) (linkType : String) : Prop where
  map : ∀ child, (∃ key, (kb.loadChildrenMap platform parent linkType).get? key = some child) ↔
    ∃ rel ∈ linked, rel.LinksFrom (kb.getNodeById parent) linkType ∧ kb.node rel.endNode = child
  list : ∀ child, child ∈ kb.loadChildrenList platform parent linkType ↔
    ∃ rel ∈ linked, rel.LinksFrom (kb.getNodeById parent) linkType ∧ kb.node rel.endNode = child
  found : ∀ key child, kb.loadChild platform parent key linkType = some child →
    ∃ rel ∈ linked, rel.LinksFrom (kb.getNodeById parent) linkType ∧ rel.key = key ∧
      kb.node rel.endNode = child
  missing : ∀ key, kb.loadChild platform parent key linkType = none →
    ∀ rel ∈ linked, rel.LinksFrom (kb.getNodeById parent) linkType → rel.key ≠ key

/-- Nothing links to the node by the type, and every child that is linked from it has a key
that is not the key of another one. -/
structure OwnKeys (linked : List Relationship) (n : ℕ) (linkType : String) : Prop where
  outward : ∀ rel ∈ linked, rel.type = linkType → rel.endNode ≠ n
  own : ∀ rel ∈ linked, rel.LinksFrom n linkType →
    ∃ rel' ∈ linked, rel'.LinksFrom n linkType ∧ rel'.endNode = rel.endNode ∧
      ∀ other ∈ linked, other.LinksFrom n linkType → other.key = rel'.key →
        other.endNode = rel.endNode

namespace KB

variable {platform : Platform} {kb : KB} {parent : Option ℕ} {linkType : String}

variable (platform) in
/-- What a map of children is made of: the relationships that do not end at the node. -/
theorem mem_enumerated {rel : Relationship} {n : ℕ} :
    rel ∈ (platform.order (kb.relationshipsOf n linkType)).filter (fun rel => rel.endNode ≠ n) ↔
      rel ∈ kb.relationships ∧ rel.LinksFrom n linkType ∧ rel.endNode ≠ n := by
  rw [List.mem_filter, (platform.order_perm _).mem_iff, mem_relationshipsOf, decide_eq_true_eq,
    Relationship.LinksFrom]
  tauto

/-- Whatever the order, a map of children has no other children. -/
theorem linked_of_mem_loadChildrenMap {key : String} {child : Node}
    (member : (key, child) ∈ (kb.loadChildrenMap platform parent linkType).entries) :
    ∃ rel ∈ kb.relationships, rel.LinksFrom (kb.getNodeById parent) linkType ∧ rel.key = key ∧
      kb.node rel.endNode = child := by
  obtain ⟨rel, present, same⟩ := List.mem_map.mp (InsertionMap.mem_of_mem_entries_ofList member)
  obtain ⟨rfl, rfl⟩ := Prod.mk.inj same
  obtain ⟨stored, links, -⟩ := (mem_enumerated platform).mp present
  exact ⟨rel, stored, links, rfl, rfl⟩

/-- The list of children is made of the values of the map. -/
theorem mem_loadChildrenList {child : Node} :
    child ∈ kb.loadChildrenList platform parent linkType ↔
      ∃ key, (kb.loadChildrenMap platform parent linkType).get? key = some child := by
  unfold loadChildrenList childKeys
  rw [List.mem_filterMap]
  constructor
  · rintro ⟨key, -, value⟩
    exact ⟨key, value⟩
  · rintro ⟨key, value⟩
    have entry := InsertionMap.get?_eq_some_iff.mp value
    exact ⟨key, (platform.keyOrder_perm _).mem_iff.mpr (List.mem_map_of_mem entry), value⟩

end KB

/-- The platform on which the relationships with a property are enumerated before the others. -/
def Platform.favouring (p : Relationship → Bool) : Platform where
  acceptsURI _ := true
  order rels := rels.filter p ++ rels.filter fun rel => ! p rel
  order_perm rels := List.filter_append_perm p rels
  keyOrder keys := keys
  keyOrder_perm keys := .refl keys
  namespaceObject id := id + 1
  randomName id := toString id

/-- No relationship without the property is enumerated before one with it. -/
theorem Platform.pairwise_favouring (p : Relationship → Bool) (rels : List Relationship) :
    ((Platform.favouring p).order rels).Pairwise fun a b => p b = true → p a = true := by
  change (rels.filter p ++ rels.filter fun rel => ! p rel).Pairwise _
  rw [List.pairwise_append]
  refine ⟨?_, ?_, ?_⟩
  · apply List.pairwise_of_forall_mem_list
    intro a first b _ _
    exact (List.mem_filter.mp first).2
  · apply List.pairwise_of_forall_mem_list
    intro a _ b second favoured
    have other := (List.mem_filter.mp second).2
    simp [favoured] at other
  · intro a first b _ _
    exact (List.mem_filter.mp first).2

/-- A relationship that is enumerated first is found by its key. -/
theorem Platform.find?_favouring {rels : List Relationship} {rel : Relationship} (member : rel ∈ rels) :
    ((Platform.favouring fun other => other = rel).order rels).find?
      (fun other => other.key = rel.key) = some rel := by
  have favoured : rel ∈ rels.filter fun other => other = rel :=
    List.mem_filter.mpr ⟨member, decide_eq_true rfl⟩
  change (rels.filter (fun other => other = rel) ++ _).find? _ = _
  rw [List.find?_append]
  cases first : (rels.filter fun other => other = rel).find? fun other => other.key = rel.key with
  | none => exact absurd (decide_eq_true rfl) (List.find?_eq_none.mp first rel favoured)
  | some other =>
    have taken := (List.mem_filter.mp (List.mem_of_find?_eq_some first)).2
    rw [of_decide_eq_true taken, Option.some_or]

theorem KB.loadChild_of_favoured {platform : Platform} {kb : KB} {parent : Option ℕ}
    {linkType : String} {rel : Relationship}
    (favoured : platform.order = (Platform.favouring fun other => other = rel).order)
    (listed : rel ∈ kb.relationshipsOf (kb.getNodeById parent) linkType) :
    kb.loadChild platform parent rel.key linkType = some (kb.node rel.endNode) := by
  rw [KB.loadChild, favoured, Platform.find?_favouring listed, Option.map_some]

section Kept

variable {kb : KB} {parent : Option ℕ} {linkType : String}

/-- With keys of their own, all children are read back, in whatever order. -/
theorem OwnKeys.childrenKept (own : OwnKeys kb.relationships (kb.getNodeById parent) linkType)
    (platform : Platform) : ChildrenKept platform kb kb.relationships parent linkType := by
  have map : ∀ child,
      (∃ key, (kb.loadChildrenMap platform parent linkType).get? key = some child) ↔
        ∃ rel ∈ kb.relationships, rel.LinksFrom (kb.getNodeById parent) linkType ∧
          kb.node rel.endNode = child := by
    intro child
    constructor
    · rintro ⟨key, value⟩
      obtain ⟨rel, stored, links, -, same⟩ :=
        KB.linked_of_mem_loadChildrenMap (InsertionMap.get?_eq_some_iff.mp value)
      exact ⟨rel, stored, links, same⟩
    · rintro ⟨rel, stored, links, rfl⟩
      -- the last relationship with the key of the child's own ends at the child
      obtain ⟨rel', stored', links', last, only⟩ := own.own rel stored links
      have listed := (KB.mem_enumerated platform).mpr
        ⟨stored', links', own.outward rel' stored' links'.2⟩
      obtain ⟨child, entry⟩ := InsertionMap.exists_mem_entries_ofList
        (List.mem_map_of_mem (f := fun rel => (rel.key, kb.node rel.endNode)) listed)
      obtain ⟨other, stored'', links'', key, same⟩ := KB.linked_of_mem_loadChildrenMap entry
      refine ⟨rel'.key, InsertionMap.get?_eq_some_iff.mpr ?_⟩
      rw [← only other stored'' links'' key, same]
      exact entry
  constructor
  case map => exact map
  case list => exact fun child => KB.mem_loadChildrenList.trans (map child)
  case found =>
    intro key child found
    obtain ⟨rel, first, rfl⟩ := Option.map_eq_some_iff.mp found
    have listed := (platform.order_perm _).mem_iff.mp (List.mem_of_find?_eq_some first)
    obtain ⟨stored, ends, type⟩ := KB.mem_relationshipsOf.mp listed
    have outward := own.outward rel stored type
    exact ⟨rel, stored, ⟨ends.resolve_right outward, type⟩, by simpa using List.find?_some first, rfl⟩
  case missing =>
    intro key missing rel stored links same
    have none := Option.map_eq_none_iff.mp missing
    have listed := (platform.order_perm _).mem_iff.mpr
      (KB.mem_relationshipsOf.mpr ⟨stored, Or.inl links.1, links.2⟩)
    exact List.find?_eq_none.mp none rel listed (decide_eq_true same)

/-- A relationship that ends at the node can be taken for one to a child. -/
theorem ChildrenKept.outward
    (kept : ∀ platform, ChildrenKept platform kb kb.relationships parent linkType) :
    ∀ rel ∈ kb.relationships, rel.type = linkType → rel.endNode ≠ kb.getNodeById parent := by
  -- a child of itself is in no map
  have irreflexive : ∀ rel ∈ kb.relationships, rel.LinksFrom (kb.getNodeById parent) linkType →
      rel.endNode ≠ kb.getNodeById parent := by
    intro rel stored links same
    obtain ⟨key, value⟩ := ((kept .plain).map _).mpr ⟨rel, stored, links, rfl⟩
    have entry := InsertionMap.get?_eq_some_iff.mp value
    obtain ⟨other, present, pair⟩ := List.mem_map.mp (InsertionMap.mem_of_mem_entries_ofList entry)
    have ends := kb.node_injective (Prod.mk.inj pair).2
    exact ((KB.mem_enumerated .plain).mp present).2.2 (ends.trans same)
  intro rel stored type same
  -- let it be enumerated first, and look for its key
  let platform := Platform.favouring fun other => other = rel
  have found := KB.loadChild_of_favoured (rfl : platform.order = _)
    (KB.mem_relationshipsOf.mpr ⟨stored, Or.inr same, type⟩)
  obtain ⟨rel', stored', links', -, ends⟩ := (kept platform).found _ _ found
  have ends' := kb.node_injective ends
  rw [same] at ends'
  exact irreflexive rel' stored' links' ends'

/-- A child all of whose keys are keys of others can be lost. -/
theorem ChildrenKept.own
    (kept : ∀ platform, ChildrenKept platform kb kb.relationships parent linkType) (rel : Relationship)
    (stored : rel ∈ kb.relationships) (links : rel.LinksFrom (kb.getNodeById parent) linkType) :
    ∃ rel' ∈ kb.relationships, rel'.LinksFrom (kb.getNodeById parent) linkType ∧
      rel'.endNode = rel.endNode ∧
      ∀ other ∈ kb.relationships, other.LinksFrom (kb.getNodeById parent) linkType →
        other.key = rel'.key → other.endNode = rel.endNode := by
  -- let the relationships to the child be enumerated before all others
  let platform := Platform.favouring fun other => other.endNode = rel.endNode
  obtain ⟨key, value⟩ := ((kept platform).map _).mpr ⟨rel, stored, links, rfl⟩
  obtain ⟨before, after, split, last⟩ :=
    InsertionMap.mem_entries_ofList.mp (InsertionMap.get?_eq_some_iff.mp value)
  obtain ⟨before, rest, enumerated, rfl, tail⟩ := List.map_eq_append_iff.mp split
  obtain ⟨rel', after, rfl, head, rfl⟩ := List.map_eq_cons_iff.mp tail
  obtain ⟨rfl, ends⟩ := Prod.mk.inj head
  have pairwise := (Platform.pairwise_favouring (fun other => other.endNode = rel.endNode)
    (kb.relationshipsOf (kb.getNodeById parent) linkType)).filter
      fun rel => rel.endNode ≠ (kb.getNodeById parent : ℕ)
  change ((platform.order _).filter _).Pairwise _ at pairwise
  rw [enumerated] at pairwise
  have member : rel' ∈ (platform.order (kb.relationshipsOf (kb.getNodeById parent) linkType)).filter
      fun rel => rel.endNode ≠ (kb.getNodeById parent : ℕ) := by
    rw [enumerated]
    simp
  obtain ⟨stored', links', -⟩ := (KB.mem_enumerated platform).mp member
  refine ⟨rel', stored', links', kb.node_injective ends, fun other present linked key => ?_⟩
  by_contra elsewhere
  have listed := (KB.mem_enumerated platform).mpr
    ⟨present, linked, ChildrenKept.outward kept other present linked.2⟩
  rw [enumerated] at listed
  rcases List.mem_append.mp listed with inside | inside
  · have favoured := (List.pairwise_append.mp pairwise).2.2 other inside rel' List.mem_cons_self
    exact elsewhere (by simpa [kb.node_injective ends] using favoured)
  · rcases List.mem_cons.mp inside with rfl | later
    · exact elsewhere (kb.node_injective ends)
    · exact last _ (List.mem_map_of_mem later) key

end Kept

/-- After any calls, the children of a node and a type are read back as they have been linked,
in whatever order relationships are enumerated, exactly when they have keys of their own and
nothing links to the node. -/
theorem childrenKept_iff (s : World) (calls : List ChildrenCall) (parent : Option ℕ)
    (linkType : String) :
    let kb := (ChildrenCall.performAll calls s).kb
    let linked := s.kb.relationships ++ ChildrenCall.ledger calls s
    (∀ platform, ChildrenKept platform kb linked parent linkType) ↔
      OwnKeys linked (kb.getNodeById parent) linkType := by
  intro kb linked
  have refined : linked = kb.relationships :=
    (ChildrenCall.relationships_performAll calls s).symm
  rw [refined]
  constructor
  · exact fun kept => ⟨ChildrenKept.outward kept, ChildrenKept.own kept⟩
  · exact fun own => own.childrenKept

/-! ### Two children under one key -/

/-- A process with two concepts and a knowledge base with the reference node only. -/
def twoConcepts : World where
  heap := { concepts := .ofList [{}, {}] }
  kb := .onlyRoot
  id2object _ := none

/-- Both concepts are saved below the reference node, under one key. -/
def saveUnderOneKey : List ChildrenCall :=
  [.saveResource (.concept 0) (some KB.rootId) "parent" generalisationLinkName,
    .saveResource (.concept 1) (some KB.rootId) "parent" generalisationLinkName]

/-- Of the two, only the second is read back. -/
theorem repeated_key_loses_child :
    ¬ ChildrenKept .plain (ChildrenCall.performAll saveUnderOneKey twoConcepts).kb
      (twoConcepts.kb.relationships ++ ChildrenCall.ledger saveUnderOneKey twoConcepts)
      (some KB.rootId) generalisationLinkName := by
  intro kept
  let kb := (ChildrenCall.performAll saveUnderOneKey twoConcepts).kb
  have linked := (kept.list (kb.node 1)).mpr ⟨⟨0, 1, generalisationLinkName, "parent"⟩,
    by decide +kernel, ⟨by decide +kernel, rfl⟩, rfl⟩
  have listed : kb.loadChildrenList .plain (some KB.rootId) generalisationLinkName =
      [kb.node 2] := by decide +kernel
  rw [listed, List.mem_singleton] at linked
  exact absurd (kb.node_injective linked) (by decide)

end ThinkingUnderstanding
