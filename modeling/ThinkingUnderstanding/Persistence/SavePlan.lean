import Mathlib.Algebra.Order.Group.Multiset
import Mathlib.Tactic.Abel
import ThinkingUnderstanding.Persistence.Save

/-!
# What a save is to do

The plan of a save is the preorder of the resources that are reached, computed on the object
graph alone. It fixes which of the nodes to come each resource is stored as, which key
it is saved under, and between which nodes relationships are due.

A save follows its plan as long as it recognises the resources: two resources are told
apart when they have different URI objects, and the uid of the later one is neither that of
the earlier one nor the number of its node.

## Main definitions

* `SavePlan` — the object graph, the knowledge base and the order of arrivals
* `SavePlan.nodeOf`, `SavePlan.textOf` — the node and the key of a resource
* `SavePlan.due` — the relationships between given resources and their children
* `SavePlan.Apart` — the later resource is told apart from the earlier one
* `SavePlan.Followed` — the state when the given arrivals have been made

## Main results

* `Followed.asked`, `Followed.linked`, `Followed.stored` — what the steps of a save preserve
-/

namespace ThinkingUnderstanding

open Math Semantics

/-- `KnowledgeURI.uri` returns: its text has been made, or is accepted. -/
def KnowledgeURI.Accepted (platform : Platform) (uri : KnowledgeURI) : Prop :=
  uri.cached = none → platform.acceptsURI uri.format

namespace Heap

/-- The heaps differ at most in the uids and the kept texts of URI objects. -/
structure SameGraph (heap heap' : Heap) : Prop where
  objects : heap' = { heap with uris := heap'.uris }
  fields : ∀ u, heap'.uri u =
    { heap.uri u with uid := (heap'.uri u).uid, cached := (heap'.uri u).cached }

namespace SameGraph

variable {heap heap' heap'' : Heap}

theorem refl (heap : Heap) : heap.SameGraph heap := ⟨rfl, fun _ => rfl⟩

theorem trans (first : heap.SameGraph heap') (second : heap'.SameGraph heap'') :
    heap.SameGraph heap'' := by
  constructor
  · rw [second.objects, first.objects]
  · intro u
    rw [second.fields u, first.fields u]

theorem uriRef_eq (same : heap.SameGraph heap') : heap'.uriRef = heap.uriRef := by
  rw [same.objects]
  funext r
  cases r <;> rfl

theorem exported_eq (same : heap.SameGraph heap') : heap'.exported = heap.exported := by
  have fields : ∀ u, exportedResource (heap'.uri u) = exportedResource (heap.uri u) := by
    intro u
    rw [same.fields u]
    rfl
  have objects := same.objects
  funext r
  cases r <;> simp only [exported, fields] <;> rw [objects] <;> rfl

theorem children_eq (same : heap.SameGraph heap') : heap'.children = heap.children := by
  have names : ∀ u, (heap'.uri u).name = (heap.uri u).name := by
    intro u
    rw [same.fields u]
  have objects := same.objects
  funext r
  cases r <;> simp only [children, conceptChildren, names] <;> rw [objects] <;> rfl

end SameGraph

theorem uri_modifyURI (heap : Heap) (u u' : UriRef) (f : KnowledgeURI → KnowledgeURI) :
    (heap.modifyURI u f).uri u' = if u' = u then f (heap.uri u) else heap.uri u' :=
  Arena.get_modify ..

/-- Assigning a uid or a text does not change the graph. -/
theorem sameGraph_modifyURI (heap : Heap) (u : UriRef) {f : KnowledgeURI → KnowledgeURI}
    (keeps : ∀ uri, f uri = { uri with uid := (f uri).uid, cached := (f uri).cached }) :
    heap.SameGraph (heap.modifyURI u f) := by
  refine ⟨rfl, fun u' => ?_⟩
  rw [uri_modifyURI]
  split_ifs with here
  · rw [here]
    exact keeps _
  · rfl

end Heap

/-- The text of the URI object `u` has been asked for. -/
structure World.Asked (u : UriRef) (s s' : World) : Prop where
  kb : s'.kb = s.kb
  id2object : s'.id2object = s.id2object
  saved : s'.saved = s.saved
  graph : s.heap.SameGraph s'.heap
  kept : s'.heap.uri u = { s.heap.uri u with cached := some (s.heap.uri u).text }
  others : ∀ u' ≠ u, s'.heap.uri u' = s.heap.uri u'

section Texts

variable {platform : Platform} {u : UriRef} {s : World}

theorem run_uriText_of_accepted (accepted : (s.heap.uri u).Accepted platform) :
    ∃ s', (uriText platform u).run s = .ok (s.heap.uri u).text s' ∧ World.Asked u s s' := by
  cases kept : (s.heap.uri u).cached with
  | some text =>
    have same : (s.heap.uri u).text = text := by rw [KnowledgeURI.text, kept, Option.getD_some]
    refine ⟨s, ?_, rfl, rfl, rfl, Heap.SameGraph.refl _, ?_, fun _ _ => rfl⟩
    · simp only [uriText, EStateM.run_bind, EStateM.run_get, kept, same]
      rfl
    · rw [same, ← kept]
  | none =>
    have same : (s.heap.uri u).text = (s.heap.uri u).format := by
      rw [KnowledgeURI.text, kept, Option.getD_none]
    refine ⟨{ s with heap := s.heap.modifyURI u fun uri => { uri with cached := some uri.format } },
      ?_, rfl, rfl, rfl, Heap.sameGraph_modifyURI _ _ fun _ => rfl, ?_, fun u' other => ?_⟩
    · simp only [uriText, EStateM.run_bind, EStateM.run_get, kept, if_pos (accepted kept), same]
      rfl
    · rw [same, Heap.uri_modifyURI, if_pos rfl]
    · rw [Heap.uri_modifyURI, if_neg other]

theorem run_uriText_of_not_accepted (refused : ¬ (s.heap.uri u).Accepted platform) :
    ∃ e, (uriText platform u).run s = .error e s := by
  unfold KnowledgeURI.Accepted at refused
  rw [Classical.not_imp] at refused
  refine ⟨.uriSyntaxException (s.heap.uri u).format, ?_⟩
  simp only [uriText, EStateM.run_bind, EStateM.run_get, refused.1, if_neg refused.2]
  rfl

end Texts

/-- The key of a call has been evaluated. -/
def World.Evaluated (e : Child) (s s' : World) : Prop :=
  match e.key with
  | .resourceURI => World.Asked (s.heap.uriRef e.resource) s s'
  | .linkName _ => s' = s

/-- The key that a call is evaluated to. -/
def World.keyOf (s : World) (e : Child) : String :=
  match e.key with
  | .resourceURI => (s.heap.uri (s.heap.uriRef e.resource)).text
  | .linkName text => text

/-- The key of a call can be evaluated. -/
def World.CanEvaluate (s : World) (platform : Platform) (e : Child) : Prop :=
  e.key = .resourceURI → (s.heap.uri (s.heap.uriRef e.resource)).Accepted platform

namespace World.Evaluated

variable {e : Child} {s s' : World}

theorem asked (evaluated : World.Evaluated e s s') (key : e.key = .resourceURI) :
    World.Asked (s.heap.uriRef e.resource) s s' := by
  unfold World.Evaluated at evaluated
  rwa [key] at evaluated

theorem eq (evaluated : World.Evaluated e s s') {text : String} (key : e.key = .linkName text) :
    s' = s := by
  unfold World.Evaluated at evaluated
  rwa [key] at evaluated

theorem kb (evaluated : World.Evaluated e s s') : s'.kb = s.kb := by
  cases key : e.key with
  | resourceURI => exact (evaluated.asked key).kb
  | linkName text => rw [evaluated.eq key]

theorem id2object (evaluated : World.Evaluated e s s') : s'.id2object = s.id2object := by
  cases key : e.key with
  | resourceURI => exact (evaluated.asked key).id2object
  | linkName text => rw [evaluated.eq key]

theorem saved (evaluated : World.Evaluated e s s') : s'.saved = s.saved := by
  cases key : e.key with
  | resourceURI => exact (evaluated.asked key).saved
  | linkName text => rw [evaluated.eq key]

theorem graph (evaluated : World.Evaluated e s s') : s.heap.SameGraph s'.heap := by
  cases key : e.key with
  | resourceURI => exact (evaluated.asked key).graph
  | linkName text =>
    rw [evaluated.eq key]
    exact Heap.SameGraph.refl _

theorem others (evaluated : World.Evaluated e s s') :
    ∀ u ≠ s.heap.uriRef e.resource, s'.heap.uri u = s.heap.uri u := by
  cases key : e.key with
  | resourceURI => exact (evaluated.asked key).others
  | linkName text =>
    rw [evaluated.eq key]
    exact fun _ _ => rfl

/-- The uids stay as they are. -/
theorem uid_eq (evaluated : World.Evaluated e s s') (r : ResourceRef) :
    s'.heap.uid r = s.heap.uid r := by
  rw [Heap.uid, Heap.uid, evaluated.graph.uriRef_eq]
  by_cases here : s.heap.uriRef r = s.heap.uriRef e.resource
  · cases key : e.key with
    | resourceURI => rw [here, (evaluated.asked key).kept]
    | linkName text => rw [evaluated.eq key]
  · rw [evaluated.others _ here]

end World.Evaluated

/-- The key of a call is evaluated, or its text is refused. -/
theorem run_keyText (platform : Platform) (s : World) (e : Child) :
    (s.CanEvaluate platform e ∧
      ∃ s', (e.keyText platform).run s = .ok (s.keyOf e) s' ∧ World.Evaluated e s s') ∨
    (¬ s.CanEvaluate platform e ∧ ∃ failure, (e.keyText platform).run s = .error failure s) := by
  unfold World.CanEvaluate World.keyOf World.Evaluated Child.keyText
  cases key : e.key with
  | resourceURI =>
    by_cases accepted : (s.heap.uri (s.heap.uriRef e.resource)).Accepted platform
    · obtain ⟨s', run, asked⟩ := run_uriText_of_accepted accepted
      refine Or.inl ⟨fun _ => accepted, s', ?_, asked⟩
      simpa only [EStateM.run_bind, EStateM.run_get] using run
    · obtain ⟨failure, run⟩ := run_uriText_of_not_accepted accepted
      refine Or.inr ⟨fun accepts => accepted (accepts rfl), failure, ?_⟩
      simpa only [EStateM.run_bind, EStateM.run_get] using run
  | linkName text => exact Or.inl ⟨(fun h => nomatch h), s, rfl, rfl⟩

/-- The object graph and the knowledge base before a save, and the calls by which each
resource is reached for the first time, in order. -/
structure SavePlan where
  heap : Heap
  kb : KB
  arrivals : List Child

/-- The plan of a save from a state, on a stack of the given depth. -/
def World.savePlan (s : World) (stack : ℕ) (root : Child) : SavePlan where
  heap := s.heap
  kb := s.kb
  arrivals := DepthFirst.visit s.heap.children Child.resource stack [] root

namespace SavePlan

variable (plan : SavePlan)

/-- The number of the node that a resource is stored as. -/
def nodeOf (r : ResourceRef) : ℕ := plan.kb.upcoming ((plan.arrivals.map Child.resource).idxOf r)

/-- The URI of a resource at the time its text is first asked for: before the resource is
stored, when it is reached under its own URI, and afterwards, when it is reached under the
name of a link. -/
def namedURI (r : ResourceRef) : KnowledgeURI :=
  let uri := plan.heap.uri (plan.heap.uriRef r)
  match (plan.arrivals.find? fun e => e.resource = r).map Child.key with
  | some (.linkName _) => { uri with uid := toString (plan.nodeOf r) }
  | _ => uri

/-- The text of the URI of a resource. -/
def textOf (r : ResourceRef) : String := (plan.namedURI r).text

/-- The relationship that a call of `save` is to make. -/
def relationship (startNode : ℕ) (e : Child) : Relationship where
  startNode := startNode
  endNode := plan.nodeOf e.resource
  type := e.linkType
  key := match e.key with
    | .resourceURI => plan.textOf e.resource
    | .linkName text => text

/-- The relationships from the resources of the given arrivals to their children. -/
def due (arrivals : List Child) : Multiset Relationship :=
  arrivals.flatMap fun e =>
    (plan.heap.children e.resource).map (plan.relationship (plan.nodeOf e.resource))

/-- The resource `r'`, which is reached later, is told apart from `r`. -/
def Apart (r r' : ResourceRef) : Prop :=
  plan.heap.uriRef r ≠ plan.heap.uriRef r' ∧
    (plan.heap.uid r' ≠ "" →
      plan.heap.uid r' ≠ plan.heap.uid r ∧ plan.heap.uid r' ≠ toString (plan.nodeOf r))

instance : DecidableRel plan.Apart := fun _ _ => inferInstanceAs (Decidable (_ ∧ (_ → _)))

/-- All resources that are reached are told apart. -/
def AllApart : Prop := (plan.arrivals.map Child.resource).Pairwise plan.Apart

instance : Decidable plan.AllApart := inferInstanceAs (Decidable (List.Pairwise _ _))

/-- The text that a call uses as its key is accepted. -/
def Passes (platform : Platform) (e : Child) : Prop :=
  e.key = .resourceURI → (plan.namedURI e.resource).Accepted platform

/-- The texts that are used as keys are all accepted. -/
def AllPass (platform : Platform) : Prop :=
  ∀ e ∈ plan.arrivals, ∀ c ∈ plan.heap.children e.resource, plan.Passes platform c

/-- The state when the arrivals `D` have been made as planned. -/
structure Followed (platform : Platform) (D : List Child) (s : World) : Prop where
  graph : plan.heap.SameGraph s.heap
  apart : (D.map Child.resource).Pairwise plan.Apart
  nodes : s.kb.nodes = plan.kb.nodes ++
    D.map fun e => ⟨plan.nodeOf e.resource, plan.heap.exported e.resource⟩
  upcoming : ∀ i, s.kb.upcoming i = plan.kb.upcoming (D.length + i)
  saved : ∀ uid, uid ∈ s.saved ↔ ∃ r ∈ D.map Child.resource,
    uid = toString (plan.nodeOf r) ∨ (uid ≠ "" ∧ uid = plan.heap.uid r)
  registered : ∀ r ∈ D.map Child.resource, s.id2object (plan.nodeOf r) = some r
  numbered : ∀ r ∈ D.map Child.resource, s.heap.uid r = toString (plan.nodeOf r)
  named : ∀ r ∈ D.map Child.resource,
    (s.heap.uri (plan.heap.uriRef r)).text = plan.textOf r ∧
      ((s.heap.uri (plan.heap.uriRef r)).Accepted platform ↔ (plan.namedURI r).Accepted platform)
  untouched : ∀ u, (∀ r ∈ D.map Child.resource, plan.heap.uriRef r ≠ u) →
    s.heap.uri u = plan.heap.uri u

variable {plan : SavePlan} {platform : Platform} {D : List Child} {e : Child}
  {r : ResourceRef} {s s₁ : World}

theorem due_append_singleton (D : List Child) (e : Child) :
    plan.due (D ++ [e]) = plan.due D +
      ((plan.heap.children e.resource).map (plan.relationship (plan.nodeOf e.resource)) :
        List Relationship) := by
  rw [due, due, List.flatMap_append, List.flatMap_singleton, Multiset.coe_add]

/-- The node of the next arrival is the next one to come. -/
theorem nodeOf_next (next : D ++ [e] <+: plan.arrivals)
    (fresh : e.resource ∉ D.map Child.resource) :
    plan.nodeOf e.resource = plan.kb.upcoming D.length := by
  obtain ⟨rest, split⟩ := next
  rw [nodeOf, ← split, List.map_append, List.map_append, List.append_assoc,
    List.idxOf_append_of_notMem fresh, List.map_singleton, List.singleton_append,
    List.idxOf_cons_self, List.length_map, Nat.add_zero]

theorem nodeOf_injOn {r r' : ResourceRef} (member : r ∈ plan.arrivals.map Child.resource)
    (same : plan.nodeOf r = plan.nodeOf r') : r = r' :=
  (List.idxOf_inj member).mp (plan.kb.upcoming_injective same)

theorem mem_arrivals_of_longer (longer : D <+: plan.arrivals) (member : r ∈ D.map Child.resource) :
    r ∈ plan.arrivals.map Child.resource := (longer.map Child.resource).subset member

/-- How the next resource is named depends on the call by which it is reached. -/
theorem namedURI_next (next : D ++ [e] <+: plan.arrivals)
    (fresh : e.resource ∉ D.map Child.resource) :
    plan.namedURI e.resource = match e.key with
      | .linkName _ => { plan.heap.uri (plan.heap.uriRef e.resource) with
          uid := toString (plan.nodeOf e.resource) }
      | .resourceURI => plan.heap.uri (plan.heap.uriRef e.resource) := by
  obtain ⟨rest, split⟩ := next
  have found : plan.arrivals.find? (fun e' => e'.resource = e.resource) = some e := by
    rw [← split, List.append_assoc, List.find?_append]
    have before : D.find? (fun e' => e'.resource = e.resource) = none := by
      rw [List.find?_eq_none]
      intro e' member same
      exact fresh (List.mem_map.mpr ⟨e', member, of_decide_eq_true same⟩)
    rw [before, Option.none_or, List.singleton_append]
    exact List.find?_cons_of_pos (decide_eq_true rfl)
  rw [namedURI, found, Option.map_some]
  cases e.key <;> rfl

namespace Followed

/-- Before the first arrival. -/
theorem start (s : World) (stack : ℕ) (root : Child) :
    (s.savePlan stack root).Followed platform [] { s with saved := [] } where
  graph := Heap.SameGraph.refl _
  apart := List.Pairwise.nil
  nodes := (List.append_nil _).symm
  upcoming i := by rw [List.length_nil, Nat.zero_add]; rfl
  saved uid := by simp
  registered := List.forall_mem_nil _
  numbered := List.forall_mem_nil _
  named := List.forall_mem_nil _
  untouched _ _ := rfl

/-- Resources that have been reached are the same when their URI objects are. -/
theorem eq_of_uriRef_eq (followed : plan.Followed platform D s) {r r' : ResourceRef}
    (member : r ∈ D.map Child.resource) (member' : r' ∈ D.map Child.resource)
    (same : plan.heap.uriRef r = plan.heap.uriRef r') : r = r' := by
  have distinct : ((D.map Child.resource).map plan.heap.uriRef).Nodup :=
    List.pairwise_map.mpr (followed.apart.imp fun apart => apart.1)
  exact List.inj_on_of_nodup_map distinct member member' same

/-- Asking for the text of a resource that has been reached. -/
theorem asked (followed : plan.Followed platform D s) (member : r ∈ D.map Child.resource)
    (accepted : (plan.namedURI r).Accepted platform)
    (asked : World.Asked (plan.heap.uriRef r) s s₁) : plan.Followed platform D s₁ where
  graph := followed.graph.trans asked.graph
  apart := followed.apart
  nodes := by rw [asked.kb, followed.nodes]
  upcoming := by rw [asked.kb]; exact followed.upcoming
  saved := by rw [asked.saved]; exact followed.saved
  registered := by rw [asked.id2object]; exact followed.registered
  numbered r' member' := by
    rw [← followed.numbered r' member', Heap.uid, Heap.uid, asked.graph.uriRef_eq,
      followed.graph.uriRef_eq]
    by_cases here : plan.heap.uriRef r' = plan.heap.uriRef r
    · rw [here, asked.kept]
    · rw [asked.others _ here]
  named r' member' := by
    by_cases here : plan.heap.uriRef r' = plan.heap.uriRef r
    · obtain rfl := followed.eq_of_uriRef_eq member' member here
      rw [asked.kept]
      refine ⟨(followed.named r' member).1, iff_of_true (fun none => ?_) accepted⟩
      cases none
    · rw [asked.others _ here]
      exact followed.named r' member'
  untouched u outside := by
    rw [asked.others u fun same => outside r member same.symm, followed.untouched u outside]

/-- Making a relationship. -/
theorem linked (followed : plan.Followed platform D s)
    (startNode endNode : {id // s.kb.HasNode id}) (type key : String) :
    plan.Followed platform D
      { s with kb := s.kb.createRelationshipTo startNode endNode type key } where
  graph := followed.graph
  apart := followed.apart
  nodes := followed.nodes
  upcoming := followed.upcoming
  saved := followed.saved
  registered := followed.registered
  numbered := followed.numbered
  named := followed.named
  untouched := followed.untouched

/-- The URI object of a resource that is told apart has not been touched. -/
theorem uri_next (followed : plan.Followed platform D s)
    (apart : ∀ r ∈ D.map Child.resource, plan.Apart r e.resource) :
    s.heap.uri (plan.heap.uriRef e.resource) = plan.heap.uri (plan.heap.uriRef e.resource) :=
  followed.untouched _ fun r member => (apart r member).1

section Storing

variable (followed : plan.Followed platform D s) (next : D ++ [e] <+: plan.arrivals)
  (fresh : e.resource ∉ D.map Child.resource)
  (apart : ∀ r ∈ D.map Child.resource, plan.Apart r e.resource)
  (evaluated : World.Evaluated e s s₁)

include followed next fresh evaluated in
/-- The next node to come is that of the next resource. -/
theorem upcoming_next : s₁.kb.upcoming 0 = plan.nodeOf e.resource := by
  rw [evaluated.kb, followed.upcoming, nodeOf_next next fresh, Nat.add_zero]

include followed evaluated in
theorem uriRef_evaluated : s₁.heap.uriRef = plan.heap.uriRef :=
  (followed.graph.trans evaluated.graph).uriRef_eq

include followed apart evaluated in
/-- The uid of the next resource is the one that it has had before the save. -/
theorem uid_next : s₁.heap.uid e.resource = plan.heap.uid e.resource := by
  rw [evaluated.uid_eq, Heap.uid, followed.graph.uriRef_eq, followed.uri_next apart, Heap.uid]

include followed next fresh evaluated in
/-- Storing the next resource assigns the number of its node, and no other URI object. -/
theorem uri_store (parent : Option ℕ) (key linkType : String) (u : UriRef) :
    (s₁.store e.resource parent key linkType).heap.uri u =
      if u = plan.heap.uriRef e.resource then
        { s₁.heap.uri (plan.heap.uriRef e.resource) with uid := toString (plan.nodeOf e.resource) }
      else s₁.heap.uri u := by
  rw [World.store, Heap.uri_modifyURI, followed.uriRef_evaluated evaluated,
    followed.upcoming_next next fresh evaluated]

include followed next fresh apart evaluated in
/-- The URI object of a resource that has been stored before stays as it is. -/
theorem uri_store_of_mem (parent : Option ℕ) (key linkType : String)
    (member : r ∈ D.map Child.resource) :
    (s₁.store e.resource parent key linkType).heap.uri (plan.heap.uriRef r) =
      s.heap.uri (plan.heap.uriRef r) := by
  have others := evaluated.others
  rw [followed.graph.uriRef_eq] at others
  rw [followed.uri_store next fresh evaluated, if_neg (apart r member).1,
    others _ (apart r member).1]

include followed next fresh apart evaluated in
/-- What has been noted when the next resource has been stored. -/
theorem mem_saved_store (parent : Option ℕ) (key linkType uid : String) :
    uid ∈ (s₁.store e.resource parent key linkType).saved ↔
      ∃ r ∈ (D ++ [e]).map Child.resource,
        uid = toString (plan.nodeOf r) ∨ (uid ≠ "" ∧ uid = plan.heap.uid r) := by
  change uid ∈ s₁.saved ++ _ ++ [_] ↔ _
  rw [evaluated.saved, followed.uid_next apart evaluated,
    followed.upcoming_next next fresh evaluated, List.mem_append, List.mem_append, followed.saved]
  simp only [List.map_append, List.map_singleton, List.mem_append, List.mem_singleton,
    or_and_right, exists_or, exists_eq_left]
  split_ifs with none
  · -- the resource had no uid, so only the number of its node is new
    rw [none]
    simp only [List.not_mem_nil, or_false, ne_eq, not_and_self]
  · rw [List.mem_singleton]
    constructor
    · rintro ((old | rfl) | rfl)
      · exact Or.inl old
      · exact Or.inr (Or.inr ⟨none, rfl⟩)
      · exact Or.inr (Or.inl rfl)
    · rintro (old | rfl | ⟨-, rfl⟩)
      · exact Or.inl (Or.inl old)
      · exact Or.inr rfl
      · exact Or.inl (Or.inr rfl)

include followed next fresh apart evaluated in
/-- The text of the next resource is the one that is planned. -/
theorem named_store (passes : plan.Passes platform e) (parent : Option ℕ) (key linkType : String) :
    ((s₁.store e.resource parent key linkType).heap.uri (plan.heap.uriRef e.resource)).text =
        plan.textOf e.resource ∧
      (((s₁.store e.resource parent key linkType).heap.uri
        (plan.heap.uriRef e.resource)).Accepted platform ↔
          (plan.namedURI e.resource).Accepted platform) := by
  have name := namedURI_next next fresh
  have uri := followed.uri_next apart
  rw [textOf, followed.uri_store next fresh evaluated, if_pos rfl]
  cases key : e.key with
  | resourceURI =>
    -- the text has been asked for, and is kept
    have kept := (evaluated.asked key).kept
    rw [followed.graph.uriRef_eq, uri] at kept
    rw [key] at name
    refine ⟨?_, iff_of_true (fun none => ?_) (passes key)⟩
    · rw [kept, name]
      rfl
    · rw [kept] at none
      exact nomatch none
  | linkName text =>
    -- the text is asked for later, with the number of the node
    rw [key] at name
    rw [evaluated.eq key, uri, name]
    exact ⟨rfl, Iff.rfl⟩

include followed next fresh apart evaluated in
/-- Storing the next resource, after its key has been evaluated. -/
theorem stored (passes : plan.Passes platform e) (parent : Option ℕ) (key linkType : String) :
    plan.Followed platform (D ++ [e]) (s₁.store e.resource parent key linkType) := by
  -- the objects are the same, and only the URI of `e` is written
  have graph₁ := followed.graph.trans evaluated.graph
  have graph₂ : plan.heap.SameGraph (s₁.store e.resource parent key linkType).heap :=
    graph₁.trans (Heap.sameGraph_modifyURI _ _ fun _ => rfl)
  have number := followed.upcoming_next next fresh evaluated
  have elsewhere : ∀ r ∈ D.map Child.resource,
      (s₁.store e.resource parent key linkType).heap.uri (plan.heap.uriRef r) =
        s.heap.uri (plan.heap.uriRef r) := fun _ member =>
    followed.uri_store_of_mem next fresh apart evaluated parent key linkType member
  constructor
  case graph => exact graph₂
  case apart =>
    rw [List.map_append, List.pairwise_append]
    refine ⟨followed.apart, List.pairwise_singleton _ _, fun r member r' single => ?_⟩
    rw [List.mem_singleton.mp single]
    exact apart r member
  case nodes =>
    change (s₁.kb.addChild _ parent linkType key).nodes = _
    rw [KB.addChild, KB.nodes_createRelationshipTo, KB.nodes_createNode, number, evaluated.kb,
      followed.nodes, graph₁.exported_eq, List.map_append, List.append_assoc]
    rfl
  case upcoming =>
    intro i
    change s₁.kb.upcoming (i + 1) = _
    rw [evaluated.kb, followed.upcoming, List.length_append, List.length_singleton]
    congr 1
    omega
  case saved => exact followed.mem_saved_store next fresh apart evaluated parent key linkType
  -- the new node has a number of its own, as arrivals are numbered injectively
  case registered =>
    intro r member
    change Function.update s₁.id2object (s₁.kb.upcoming 0) _ _ = _
    rw [number, evaluated.id2object]
    rw [List.map_append, List.mem_append] at member
    rcases member with old | new
    · have other : plan.nodeOf r ≠ plan.nodeOf e.resource := by
        intro same
        have known := mem_arrivals_of_longer ((List.prefix_append D [e]).trans next) old
        rw [nodeOf_injOn known same] at old
        exact fresh old
      rw [Function.update_of_ne other]
      exact followed.registered r old
    · obtain rfl := List.mem_singleton.mp new
      exact Function.update_self ..
  case numbered =>
    intro r member
    rw [Heap.uid, graph₂.uriRef_eq]
    rw [List.map_append, List.mem_append] at member
    rcases member with old | new
    · rw [elsewhere r old, ← followed.numbered r old, Heap.uid, followed.graph.uriRef_eq]
    · obtain rfl := List.mem_singleton.mp new
      rw [followed.uri_store next fresh evaluated, if_pos rfl]
  case named =>
    intro r member
    rw [List.map_append, List.mem_append] at member
    rcases member with old | new
    · rw [elsewhere r old]
      exact followed.named r old
    · obtain rfl := List.mem_singleton.mp new
      exact followed.named_store next fresh apart evaluated passes parent key linkType
  case untouched =>
    intro u outside
    have old : ∀ r ∈ D.map Child.resource, plan.heap.uriRef r ≠ u := fun r member =>
      outside r (by rw [List.map_append]; exact List.mem_append_left _ member)
    have here : u ≠ plan.heap.uriRef e.resource := fun same =>
      outside e.resource (by rw [List.map_append]; exact List.mem_append_right _ (by simp)) same.symm
    have others := evaluated.others
    rw [followed.graph.uriRef_eq] at others
    rw [followed.uri_store next fresh evaluated, if_neg here, others u here,
      followed.untouched u old]

end Storing

end Followed

end SavePlan

end ThinkingUnderstanding
