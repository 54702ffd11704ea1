import ThinkingUnderstanding.Persistence.SavePlan

/-!
# When a save is injective

A save creates one node for each resource that is reached, and relates the nodes that it is
meant to relate, exactly when it can tell the resources apart. As long as it can, the run
follows its plan. The first time it cannot, it takes a resource for one that has been
saved; it never comes back to that resource, so it ends with a node too few, if it ends
normally.

## Main definitions

* `SavedInjectively` — the contract of a save
* `SavesApart` — the condition under which it is kept
* `SavePlan.Confused` — the state after a resource has been passed over

## Main results

* `SavePlan.run_saveBelow` — a run follows the plan or is confused
* `savedInjectively_iff` — for `Concept.save`
-/

namespace ThinkingUnderstanding

open Math Semantics

namespace SavePlan

variable (plan : SavePlan)

/-- The resources that are reached, in preorder. -/
def resources : List ResourceRef := plan.arrivals.map Child.resource

/-- A resource that is reached, the victim, has been passed over. The resources of
`done` are those that have been stored. -/
structure Confused (victim : ResourceRef) (done : List ResourceRef) (s : World) : Prop where
  graph : plan.heap.SameGraph s.heap
  valid : ∀ r ∈ plan.resources, ValidUid (s.heap.uid r)
  nodup : (victim :: done).Nodup
  reached : ∀ r ∈ victim :: done, r ∈ plan.resources
  count : s.kb.nodes.length = plan.kb.nodes.length + done.length
  marked : ∀ r ∈ victim :: done, s.heap.uid r ≠ "" ∧ s.heap.uid r ∈ s.saved

/-- A run ends with an exception, or in a state in which a resource has been passed over. -/
def Lost {α : Type} (result : EStateM.Result KBFailure World α) : Prop :=
  ∀ a s, result = .ok a s → ∃ victim done, plan.Confused victim done s

variable {plan} {platform : Platform} {victim : ResourceRef} {done : List ResourceRef}
  {s s' : World}

theorem Lost.of_error {α : Type} {e : KBFailure} :
    plan.Lost (.error e s : EStateM.Result KBFailure World α) := fun _ _ same => nomatch same

theorem Confused.lost {α : Type} {a : α} (confused : plan.Confused victim done s) :
    plan.Lost (.ok a s : EStateM.Result KBFailure World α) := by
  intro a' s' same
  cases same
  exact ⟨victim, done, confused⟩

/-- A run that is lost stays so. -/
theorem Lost.bind {α β : Type} {p : KBProgram α} {f : α → KBProgram β}
    (lost : plan.Lost (p.run s))
    (onward : ∀ a t victim done, plan.Confused victim done t → plan.Lost ((f a).run t)) :
    plan.Lost ((p >>= f).run s) := by
  intro b s' run
  obtain ⟨a, t, first, second⟩ := run_bind_eq_ok_iff.mp run
  obtain ⟨victim, done, confused⟩ := lost a t first
  exact onward a t victim done confused b s' second

theorem run_createLink_eq_ok {parent child : Option ℕ} {linkType key : String}
    (run : (N4JKB.createLink parent child linkType key).run s = .ok () s') :
    ∃ startNode endNode,
      s' = { s with kb := s.kb.createRelationshipTo startNode endNode linkType key } := by
  simp only [N4JKB.createLink, EStateM.run_bind, EStateM.run_get] at run
  cases starts : s.kb.findNode parent with
  | none =>
    simp only [starts] at run
    cases run
  | some startNode =>
    cases ends : s.kb.findNode child with
    | none =>
      simp only [starts, ends] at run
      cases run
    | some endNode =>
      simp only [starts, ends] at run
      cases run
      exact ⟨startNode, endNode, rfl⟩

namespace Confused

theorem evaluated {e : Child} (confused : plan.Confused victim done s)
    (evaluated : World.Evaluated e s s') : plan.Confused victim done s' where
  graph := confused.graph.trans evaluated.graph
  valid r member := by
    rw [evaluated.uid_eq]
    exact confused.valid r member
  nodup := confused.nodup
  reached := confused.reached
  count := by rw [evaluated.kb, confused.count]
  marked r member := by
    rw [evaluated.uid_eq, evaluated.saved]
    exact confused.marked r member

theorem linked (confused : plan.Confused victim done s) (startNode endNode : {id // s.kb.HasNode id})
    (type key : String) : plan.Confused victim done
      { s with kb := s.kb.createRelationshipTo startNode endNode type key } where
  graph := confused.graph
  valid := confused.valid
  nodup := confused.nodup
  reached := confused.reached
  count := confused.count
  marked := confused.marked

/-- Storing a resource gives its URI object a uid that is in the list. -/
theorem stored (confused : plan.Confused victim done s) {r : ResourceRef}
    (reached : r ∈ plan.resources) (unknown : s.heap.uid r = "" ∨ s.heap.uid r ∉ s.saved)
    (parent : Option ℕ) (key linkType : String) :
    plan.Confused victim (done ++ [r]) (s.store r parent key linkType) := by
  have graph : s.heap.SameGraph (s.store r parent key linkType).heap :=
    Heap.sameGraph_modifyURI _ _ fun _ => rfl
  have uid : ∀ r', (s.store r parent key linkType).heap.uid r' =
      if s.heap.uriRef r' = s.heap.uriRef r then toString (s.kb.upcoming 0)
      else s.heap.uid r' := by
    intro r'
    rw [Heap.uid, graph.uriRef_eq, World.store, Heap.uri_modifyURI]
    split_ifs with here
    · rfl
    · rfl
  -- everything that is done is marked, and a marked resource would not be stored
  have fresh : r ∉ victim :: done := by
    intro member
    obtain ⟨named, known⟩ := confused.marked r member
    rcases unknown with none | outside
    · exact named none
    · exact outside known
  have listed : toString (s.kb.upcoming 0) ∈ (s.store r parent key linkType).saved :=
    List.mem_append_right _ (List.mem_singleton.mpr rfl)
  -- objects that share the URI of `r` get its new uid, which is in the list too
  have marked : ∀ r' ∈ victim :: (done ++ [r]),
      (s.store r parent key linkType).heap.uid r' ≠ "" ∧
        (s.store r parent key linkType).heap.uid r' ∈ (s.store r parent key linkType).saved := by
    intro r' member
    rw [uid]
    split_ifs with here
    · exact ⟨toString_nat_ne_empty _, listed⟩
    · have old : r' ∈ victim :: done := by
        rw [← List.cons_append, List.mem_append] at member
        rcases member with old | new
        · exact old
        · exact absurd (by rw [List.mem_singleton.mp new]) here
      obtain ⟨named, known⟩ := confused.marked r' old
      exact ⟨named, List.mem_append_left _ (List.mem_append_left _ known)⟩
  constructor
  case graph => exact confused.graph.trans graph
  case valid =>
    intro r' member
    rw [uid]
    split_ifs with here
    · exact validUid_toString _
    · exact confused.valid r' member
  case nodup =>
    rw [← List.cons_append]
    refine List.nodup_append.mpr ⟨confused.nodup, List.nodup_singleton r, ?_⟩
    rintro a member b single rfl
    exact fresh (List.mem_singleton.mp single ▸ member)
  case reached =>
    intro r' member
    rw [← List.cons_append, List.mem_append] at member
    rcases member with old | new
    · exact confused.reached r' old
    · rw [List.mem_singleton.mp new]
      exact reached
  case count =>
    change (s.kb.addChild _ parent linkType key).nodes.length = _
    rw [KB.addChild, KB.nodes_createRelationshipTo, KB.nodes_createNode, List.length_append,
      List.length_append, confused.count, List.length_singleton, List.length_singleton]
    omega
  case marked => exact marked

end Confused

/-- What the runs of a plan rely on: the resources that are reached are closed under their
children, none of them is a link, and their uids are valid. -/
structure Sound (plan : SavePlan) : Prop where
  closed : DepthFirst.Closed plan.heap.children Child.resource plan.resources
  recursive : ∀ r ∈ plan.resources, r.Recursive
  valid : ∀ r ∈ plan.resources, ValidUid (plan.heap.uid r)

/-- The rest of a loop does not make up for a resource that has been passed over, when
its turns do not. -/
theorem Confused.lost_loop {next : Saver} {r : ResourceRef} (reached : r ∈ plan.resources)
    (turn : ∀ r ∈ plan.resources, ∀ parent key linkType victim done s,
      plan.Confused victim done s → plan.Lost ((next r parent key linkType).run s))
    {cs : List Child} (loops : ∀ c ∈ cs, c.resource ∈ plan.resources)
    (confused : plan.Confused victim done s) :
    plan.Lost ((forM cs (saveChild platform next r)).run s) := by
  induction cs generalizing victim done s with
  | nil => exact confused.lost
  | cons c cs ih =>
    rw [List.forM_cons]
    refine Lost.bind ?_ fun _ _ _ _ confused =>
      ih (fun c' member => loops c' (List.mem_cons_of_mem c member)) confused
    simp only [saveChild, EStateM.run_bind, KBMap.run_get (confused.valid r reached)]
    rcases run_keyText platform s c with ⟨-, s', run, evaluated⟩ | ⟨-, failure, run⟩
    · simp only [saveBelow, EStateM.run_bind, run]
      exact turn _ (loops c List.mem_cons_self) _ _ _ _ _ _ (confused.evaluated evaluated)
    · simp only [saveBelow, EStateM.run_bind, run]
      exact Lost.of_error

/-- Saving a resource does not make up for one that has been passed over. -/
theorem Confused.lost_save (sound : plan.Sound) (depth : ℕ) :
    ∀ r ∈ plan.resources, ∀ parent key linkType victim done s,
      plan.Confused victim done s →
        plan.Lost ((save platform depth r parent key linkType).run s) := by
  induction depth with
  | zero => exact fun _ _ _ _ _ _ _ _ _ => Lost.of_error
  | succ depth ih =>
    intro r reached parent key linkType victim done s confused
    have valid := confused.valid r reached
    rw [save_succ_of_recursive depth (sound.recursive r reached)]
    -- a resource that is marked is linked to, any other one is stored and marked
    by_cases known : s.heap.uid r ≠ "" ∧ s.heap.uid r ∈ s.saved
    · rw [run_save_of_saved valid known.1 known.2]
      intro a s' run
      obtain ⟨startNode, endNode, rfl⟩ := run_createLink_eq_ok run
      exact ⟨victim, done, confused.linked startNode endNode _ _⟩
    · have unknown : s.heap.uid r = "" ∨ s.heap.uid r ∉ s.saved := by
        by_cases none : s.heap.uid r = ""
        · exact Or.inl none
        · exact Or.inr fun inside => known ⟨none, inside⟩
      rw [run_save_of_unsaved valid unknown]
      have stored := confused.stored reached unknown parent key linkType
      refine stored.lost_loop reached ih ?_
      rw [stored.graph.children_eq]
      exact sound.closed r reached

namespace Followed

variable {D : List Child} {e : Child}

theorem nodup (followed : plan.Followed platform D s) : (D.map Child.resource).Nodup :=
  followed.apart.imp fun apart same => apart.1 (congrArg plan.heap.uriRef same)

theorem mem_saved (followed : plan.Followed platform D s) {r : ResourceRef}
    (member : r ∈ D.map Child.resource) : toString (plan.nodeOf r) ∈ s.saved :=
  (followed.saved _).mpr ⟨r, member, Or.inl rfl⟩

theorem hasNode_nodeOf (followed : plan.Followed platform D s) {r : ResourceRef}
    (member : r ∈ D.map Child.resource) : s.kb.HasNode (plan.nodeOf r) := by
  obtain ⟨e, arrival, rfl⟩ := List.mem_map.mp member
  rw [KB.HasNode, followed.nodes]
  exact List.mem_map.mpr ⟨_, List.mem_append_right _ (List.mem_map_of_mem arrival), rfl⟩

/-- The uid of a resource whose URI object has not been touched. -/
theorem uid_eq (followed : plan.Followed platform D s) {r : ResourceRef}
    (outside : ∀ r' ∈ D.map Child.resource, plan.heap.uriRef r' ≠ plan.heap.uriRef r) :
    s.heap.uid r = plan.heap.uid r := by
  rw [Heap.uid, followed.graph.uriRef_eq, followed.untouched _ outside, Heap.uid]

/-- The uid of a resource whose URI object is that of a resource that has been stored. -/
theorem uid_of_shared (followed : plan.Followed platform D s) {r r' : ResourceRef}
    (member : r' ∈ D.map Child.resource) (same : plan.heap.uriRef r' = plan.heap.uriRef r) :
    s.heap.uid r = toString (plan.nodeOf r') := by
  rw [← followed.numbered r' member, Heap.uid, Heap.uid, followed.graph.uriRef_eq, same]

theorem valid (followed : plan.Followed platform D s) (sound : plan.Sound) :
    ∀ r ∈ plan.resources, ValidUid (s.heap.uid r) := by
  intro r reached
  by_cases shared : ∃ r' ∈ D.map Child.resource, plan.heap.uriRef r' = plan.heap.uriRef r
  · obtain ⟨r', member, same⟩ := shared
    rw [followed.uid_of_shared member same]
    exact validUid_toString _
  · rw [followed.uid_eq fun r' member same => shared ⟨r', member, same⟩]
    exact sound.valid r reached

/-- A resource that is told apart from those that have been stored is not in the list. -/
theorem unknown (followed : plan.Followed platform D s)
    (apart : ∀ r ∈ D.map Child.resource, plan.Apart r e.resource) :
    s.heap.uid e.resource = "" ∨ s.heap.uid e.resource ∉ s.saved := by
  rw [followed.uid_eq fun r member => (apart r member).1]
  by_cases none : plan.heap.uid e.resource = ""
  · exact Or.inl none
  · refine Or.inr fun inside => ?_
    obtain ⟨r, member, same⟩ := (followed.saved _).mp inside
    obtain ⟨otherUid, otherNode⟩ := (apart r member).2 none
    rcases same with same | ⟨-, same⟩
    · exact otherNode same
    · exact otherUid same

/-- A resource that is not told apart is taken for one that has been stored. -/
theorem known (followed : plan.Followed platform D s)
    (clash : ¬ ∀ r ∈ D.map Child.resource, plan.Apart r e.resource) :
    s.heap.uid e.resource ≠ "" ∧ s.heap.uid e.resource ∈ s.saved := by
  by_cases shared : ∃ r ∈ D.map Child.resource, plan.heap.uriRef r = plan.heap.uriRef e.resource
  · obtain ⟨r, member, same⟩ := shared
    rw [followed.uid_of_shared member same]
    exact ⟨toString_nat_ne_empty _, followed.mem_saved member⟩
  · rw [followed.uid_eq fun r member same => shared ⟨r, member, same⟩]
    rw [not_forall] at clash
    obtain ⟨r, clash⟩ := clash
    obtain ⟨member, clash⟩ := Classical.not_imp.mp clash
    have named : plan.heap.uid e.resource ≠ "" := by
      intro none
      exact clash ⟨fun same => shared ⟨r, member, same⟩, fun named => absurd none named⟩
    refine ⟨named, (followed.saved _).mpr ⟨r, member, ?_⟩⟩
    by_contra other
    rw [not_or] at other
    exact clash ⟨fun same => shared ⟨r, member, same⟩, fun _ =>
      ⟨fun same => other.2 ⟨named, same⟩, other.1⟩⟩

/-- The state in which a resource is not told apart. -/
theorem confused (followed : plan.Followed platform D s) (sound : plan.Sound)
    (longer : D <+: plan.arrivals) (reached : e.resource ∈ plan.resources)
    (fresh : e.resource ∉ D.map Child.resource)
    (clash : ¬ ∀ r ∈ D.map Child.resource, plan.Apart r e.resource) :
    plan.Confused e.resource (D.map Child.resource) s where
  graph := followed.graph
  valid := followed.valid sound
  nodup := List.nodup_cons.mpr ⟨fresh, followed.nodup⟩
  reached r member := by
    rcases List.mem_cons.mp member with rfl | inside
    · exact reached
    · exact mem_arrivals_of_longer longer inside
  count := by
    rw [followed.nodes, List.length_append, List.length_map, List.length_map]
  marked r member := by
    rcases List.mem_cons.mp member with rfl | inside
    · exact followed.known clash
    · rw [followed.numbered r inside]
      exact ⟨toString_nat_ne_empty _, followed.mem_saved inside⟩

/-- The key of the next call can be evaluated when its text is accepted. -/
theorem canEvaluate_iff (followed : plan.Followed platform D s)
    (next : e.resource ∈ D.map Child.resource ∨ (D ++ [e] <+: plan.arrivals ∧
      e.resource ∉ D.map Child.resource ∧ ∀ r ∈ D.map Child.resource, plan.Apart r e.resource)) :
    s.CanEvaluate platform e ↔ plan.Passes platform e := by
  rw [World.CanEvaluate, Passes, followed.graph.uriRef_eq]
  refine imp_congr_right fun key => ?_
  rcases next with known | ⟨next, fresh, apart⟩
  · exact (followed.named _ known).2
  · have name := namedURI_next next fresh
    rw [key] at name
    rw [followed.uri_next apart, name]

/-- What the next call evaluates its key to. -/
theorem keyOf_eq (followed : plan.Followed platform D s) (startNode : ℕ)
    (next : e.resource ∈ D.map Child.resource ∨ (D ++ [e] <+: plan.arrivals ∧
      e.resource ∉ D.map Child.resource ∧ ∀ r ∈ D.map Child.resource, plan.Apart r e.resource)) :
    s.keyOf e = (plan.relationship startNode e).key := by
  cases key : e.key with
  | linkName text => simp only [World.keyOf, relationship, key]
  | resourceURI =>
    simp only [World.keyOf, relationship, key, followed.graph.uriRef_eq]
    rcases next with known | ⟨next, fresh, apart⟩
    · exact (followed.named _ known).1
    · have name := namedURI_next next fresh
      rw [key] at name
      rw [followed.uri_next apart, textOf, name]

end Followed

/-- The run from `s` to `s'` has made the arrivals of `D'` after those of `D`, and the
relationships `made` besides those due from the new arrivals. -/
structure Progress (plan : SavePlan) (platform : Platform) (D D' : List Child)
    (made : List Relationship) (s s' : World) : Prop where
  followed : plan.Followed platform D' s'
  extended : s.kb.relationships <+: s'.kb.relationships
  related : (s'.kb.relationships : Multiset Relationship) + plan.due D =
    s.kb.relationships + made + plan.due D'
  passes : ∀ e ∈ D', e ∉ D → ∀ c ∈ plan.heap.children e.resource, plan.Passes platform c

/-- A run makes progress, or it is lost, and then the plan was not a good one. When all
resources are told apart, it can only be lost through an exception. -/
def Outcome (plan : SavePlan) (platform : Platform) (D D' : List Child) (calls : List Child)
    (startNode : ℕ) (s : World) (result : EStateM.Result KBFailure World PUnit) : Prop :=
  (∃ s', result = .ok ⟨⟩ s' ∧
    plan.Progress platform D D' (calls.map (plan.relationship startNode)) s s' ∧
    ∀ c ∈ calls, plan.Passes platform c) ∨
  (¬ (plan.AllApart ∧ plan.AllPass platform) ∧ plan.Lost result ∧
    (plan.AllApart → ∃ failure s', result = .error failure s'))

variable {D D' D'' : List Child}

/-- The progress of two runs, one after the other. -/
theorem Progress.trans {made made' : List Relationship} {t : World}
    (first : plan.Progress platform D D' made s t)
    (second : plan.Progress platform D' D'' made' t s') :
    plan.Progress platform D D'' (made ++ made') s s' where
  followed := second.followed
  extended := first.extended.trans second.extended
  related := by
    have sum : (s'.kb.relationships : Multiset Relationship) + plan.due D + plan.due D' =
        s.kb.relationships + (made ++ made' : List Relationship) + plan.due D'' + plan.due D' := by
      calc (s'.kb.relationships : Multiset Relationship) + plan.due D + plan.due D'
          = (s'.kb.relationships + plan.due D') + plan.due D := by abel
        _ = (t.kb.relationships + plan.due D) + made' + plan.due D'' := by
            rw [second.related]
            abel
        _ = _ := by
            rw [first.related, ← Multiset.coe_add]
            abel
    exact add_right_cancel sum
  passes e member outside := by
    by_cases early : e ∈ D'
    · exact first.passes e early outside
    · exact second.passes e member early

/-- The turns of a loop have the outcome that each of them has. -/
theorem outcome_loop (sound : plan.Sound) {depth : ℕ}
    (turn : ∀ D e s p, plan.Followed platform D s → s.kb.HasNode p →
      e.resource ∈ plan.resources → (plan.AllPass platform → plan.Passes platform e) →
      DepthFirst.unseen Child.resource plan.resources D < depth →
      DepthFirst.visit plan.heap.children Child.resource depth D e <+: plan.arrivals →
      plan.Outcome platform D (DepthFirst.visit plan.heap.children Child.resource depth D e) [e] p s
        ((saveBelow platform (save platform depth) (some p) e).run s))
    {r : ResourceRef} (calls : List Child) :
    ∀ D s, plan.Followed platform D s → r ∈ D.map Child.resource → r ∈ plan.resources →
      (∀ c ∈ calls, c.resource ∈ plan.resources) →
      (∀ c ∈ calls, plan.AllPass platform → plan.Passes platform c) →
      DepthFirst.unseen Child.resource plan.resources D < depth →
      calls.foldl (DepthFirst.visit plan.heap.children Child.resource depth) D <+: plan.arrivals →
      plan.Outcome platform D
        (calls.foldl (DepthFirst.visit plan.heap.children Child.resource depth) D) calls
        (plan.nodeOf r) s ((forM calls (saveChild platform (save platform depth) r)).run s) := by
  -- on the calls that remain; what has been saved before them is the state of the visit
  induction calls with
  | nil =>
    intro D s followed _ _ _ _ _ _
    refine Or.inl ⟨s, rfl, ⟨followed, List.prefix_refl _, ?_, ?_⟩, List.forall_mem_nil _⟩
    · rw [List.map_nil, Multiset.coe_nil, add_zero, List.foldl_nil]
    · exact fun e inside outside => absurd inside outside
  | cons c calls ih =>
    intro D s followed member reached loops edges deep longer
    have turned := turn D c s (plan.nodeOf r) followed (followed.hasNode_nodeOf member)
      (loops c List.mem_cons_self) (edges c List.mem_cons_self) deep
      ((DepthFirst.prefix_foldl (DepthFirst.prefix_visit _ _ depth) calls _).trans longer)
    have begun : (saveChild platform (save platform depth) r c).run s =
        (saveBelow platform (save platform depth) (some (plan.nodeOf r)) c).run s := by
      simp only [saveChild, EStateM.run_bind, KBMap.run_get (followed.valid sound r reached),
        followed.numbered r member, KBMap.number_toString]
    rw [List.forM_cons, List.foldl_cons]
    rw [← begun] at turned
    rcases turned with ⟨t, run, progress, passes⟩ | ⟨bad, lost⟩
    · have grown := DepthFirst.prefix_visit plan.heap.children Child.resource depth D c
      have rest := ih _ t progress.followed ((grown.map Child.resource).subset member) reached
        (fun c' inside => loops c' (List.mem_cons_of_mem c inside))
        (fun c' inside => edges c' (List.mem_cons_of_mem c inside))
        (Nat.lt_of_le_of_lt (DepthFirst.unseen_le_of_longer _ grown) deep) longer
      unfold Outcome
      rw [EStateM.run_bind, run]
      rcases rest with ⟨s', run', progress', passes'⟩ | ⟨bad, lost⟩
      · refine Or.inl ⟨s', run', progress.trans progress', fun c' inside => ?_⟩
        rcases List.mem_cons.mp inside with rfl | later
        · exact passes c' (List.mem_singleton.mpr rfl)
        · exact passes' c' later
      · exact Or.inr ⟨bad, lost⟩
    · -- a lost turn stays lost, whatever the later turns do
      obtain ⟨lost, failed⟩ := lost
      refine Or.inr ⟨bad, lost.bind fun _ t victim done confused => ?_, fun apart => ?_⟩
      · exact confused.lost_loop reached (Confused.lost_save sound depth)
          fun c' inside => loops c' (List.mem_cons_of_mem c inside)
      · obtain ⟨failure, t, run⟩ := failed apart
        rw [EStateM.run_bind, run]
        exact ⟨failure, t, rfl⟩

theorem run_createLink {startNode endNode : ℕ} (starts : s.kb.HasNode startNode)
    (ends : s.kb.HasNode endNode) (linkType key : String) :
    (N4JKB.createLink (some startNode) (some endNode) linkType key).run s =
      .ok () { s with
        kb := s.kb.createRelationshipTo ⟨startNode, starts⟩ ⟨endNode, ends⟩ linkType key } := by
  simp only [N4JKB.createLink, EStateM.run_bind, EStateM.run_get, KB.findNode, dif_pos starts,
    dif_pos ends]
  rfl

/-- Asking for a key leaves the arrivals as they are. -/
theorem Followed.evaluated {e : Child} (followed : plan.Followed platform D s)
    (known : e.resource ∈ D.map Child.resource) (passes : plan.Passes platform e)
    (evaluated : World.Evaluated e s s') : plan.Followed platform D s' := by
  cases key : e.key with
  | resourceURI =>
    have asked := evaluated.asked key
    rw [followed.graph.uriRef_eq] at asked
    exact followed.asked known (passes key) asked
  | linkName text => rwa [evaluated.eq key]

section Calls

variable {e : Child} {p : ℕ} {s₁ : World}

/-- A run that has raised an exception is lost. -/
theorem Outcome.of_error {calls : List Child} {startNode : ℕ} {failure : KBFailure}
    (bad : ¬ (plan.AllApart ∧ plan.AllPass platform)) :
    plan.Outcome platform D D' calls startNode s (.error failure s') :=
  Or.inr ⟨bad, Lost.of_error, fun _ => ⟨failure, s', rfl⟩⟩

/-- A call of `save` evaluates its key. -/
theorem run_saveBelow (sound : plan.Sound) (reached : e.resource ∈ plan.resources) (depth : ℕ)
    (parent : Option ℕ) {key : String} (run : (e.keyText platform).run s = .ok key s₁) :
    (saveBelow platform (save platform (depth + 1)) parent e).run s =
      (saveWithChildren platform (save platform depth) (fun heap => heap.children e.resource)
        e.resource parent key e.linkType).run s₁ := by
  simp only [saveBelow, EStateM.run_bind, run,
    save_succ_of_recursive depth (sound.recursive _ reached)]

/-- A call for a resource that has been stored makes the relationship to its node. -/
theorem Followed.progress_linked (next : Saver) (loops : Heap → List Child)
    (followed : plan.Followed platform D s) (sound : plan.Sound) (parent : s.kb.HasNode p)
    (reached : e.resource ∈ plan.resources) (known : e.resource ∈ D.map Child.resource)
    (passes : plan.Passes platform e) (evaluated : World.Evaluated e s s₁) :
    ∃ s', (saveWithChildren platform next loops e.resource (some p) (s.keyOf e) e.linkType).run
        s₁ = .ok () s' ∧ plan.Progress platform D D [plan.relationship p e] s s' := by
  have followed₁ := followed.evaluated known passes evaluated
  have number := followed₁.numbered _ known
  have node := followed₁.hasNode_nodeOf known
  have parent₁ : s₁.kb.HasNode p := by rwa [evaluated.kb]
  have linked : (saveWithChildren platform next loops e.resource (some p) (s.keyOf e)
      e.linkType).run s₁ = _ :=
    run_save_of_saved (followed₁.valid sound _ reached)
      (by rw [number]; exact toString_nat_ne_empty _)
      (by rw [number]; exact followed₁.mem_saved known)
  -- the number of the uid is that of the node which has been stored
  rw [number, KBMap.number_toString, run_createLink parent₁ node] at linked
  have relationships : (s₁.kb.createRelationshipTo ⟨p, parent₁⟩ ⟨_, node⟩ e.linkType
      (s.keyOf e)).relationships = s.kb.relationships ++ [plan.relationship p e] := by
    change s₁.kb.relationships ++ [⟨p, plan.nodeOf e.resource, e.linkType, s.keyOf e⟩] = _
    rw [evaluated.kb, followed.keyOf_eq p (Or.inl known), relationship]
  refine ⟨_, linked, followed₁.linked _ _ _ _, ?_, ?_, ?_⟩
  · rw [relationships]
    exact List.prefix_append _ _
  · rw [relationships, ← Multiset.coe_add]
  · exact fun x inside outside => absurd inside outside

/-- A call for a new resource stores it, and its loops go on from there. -/
theorem Followed.progress_stored (followed : plan.Followed platform D s)
    (parent : s.kb.HasNode p) (next : D ++ [e] <+: plan.arrivals)
    (fresh : e.resource ∉ D.map Child.resource)
    (apart : ∀ r ∈ D.map Child.resource, plan.Apart r e.resource)
    (evaluated : World.Evaluated e s s₁)
    (progress : plan.Progress platform (D ++ [e]) D'
      ((plan.heap.children e.resource).map (plan.relationship (plan.nodeOf e.resource)))
      (s₁.store e.resource (some p) (s.keyOf e) e.linkType) s')
    (passes : ∀ c ∈ plan.heap.children e.resource, plan.Passes platform c) :
    plan.Progress platform D D' [plan.relationship p e] s s' := by
  have relationships : (s₁.store e.resource (some p) (s.keyOf e) e.linkType).kb.relationships =
      s.kb.relationships ++ [plan.relationship p e] := by
    change (s₁.kb.addChild _ _ _ _).relationships = _
    rw [KB.relationships_addChild, followed.upcoming_next next fresh evaluated, evaluated.kb,
      followed.keyOf_eq p (Or.inr ⟨next, fresh, apart⟩), relationship,
      KB.getNodeById_of_hasNode parent]
  refine ⟨progress.followed, ?_, ?_, ?_⟩
  · have extended := progress.extended
    rw [relationships] at extended
    exact (List.prefix_append _ _).trans extended
  · -- what is due from the new resource has been made by its loops
    have related := progress.related
    rw [relationships, due_append_singleton, ← Multiset.coe_add] at related
    refine add_right_cancel (b := (((plan.heap.children e.resource).map
      (plan.relationship (plan.nodeOf e.resource)) : List Relationship) :
        Multiset Relationship)) ?_
    rw [add_assoc, related]
    abel
  · intro x inside outside
    by_cases here : x ∈ D ++ [e]
    · rcases List.mem_append.mp here with old | single
      · exact absurd old outside
      · rw [List.mem_singleton.mp single]
        exact passes
    · exact progress.passes x inside here

/-- A resource that is not told apart from those that have been stored. -/
theorem not_allApart (next : D ++ [e] <+: plan.arrivals)
    (clash : ¬ ∀ r ∈ D.map Child.resource, plan.Apart r e.resource) : ¬ plan.AllApart := by
  refine fun allApart => clash fun r member => ?_
  have pairwise := allApart.sublist ((next.map Child.resource).sublist)
  rw [List.map_append, List.pairwise_append] at pairwise
  exact pairwise.2.2 r member _ (List.mem_singleton.mpr rfl)

end Calls

/-- A call of `save` makes progress, or it is lost. -/
theorem outcome_saveBelow (sound : plan.Sound) (depth : ℕ) :
    ∀ D e s p, plan.Followed platform D s → s.kb.HasNode p →
      e.resource ∈ plan.resources → (plan.AllPass platform → plan.Passes platform e) →
      DepthFirst.unseen Child.resource plan.resources D < depth →
      DepthFirst.visit plan.heap.children Child.resource depth D e <+: plan.arrivals →
      plan.Outcome platform D (DepthFirst.visit plan.heap.children Child.resource depth D e) [e] p s
        ((saveBelow platform (save platform depth) (some p) e).run s) := by
  -- on the depth of the stack; `ih` is what the loop over the children needs,
  -- and what has been visited before is a prefix of the planned arrivals
  induction depth with
  | zero => exact fun _ _ _ _ _ _ _ _ deep => absurd deep (Nat.not_lt_zero _)
  | succ depth ih =>
    intro D e s p followed parent reached edge deep longer
    have refused : ∀ failure, (e.keyText platform).run s = .error failure s →
        (saveBelow platform (save platform (depth + 1)) (some p) e).run s = .error failure s := by
      intro failure run
      simp only [saveBelow, EStateM.run_bind, run]
    by_cases known : e.resource ∈ D.map Child.resource
    · -- the resource has been stored, and is linked to
      rw [DepthFirst.visit_of_seen known]
      have canEvaluate := followed.canEvaluate_iff (Or.inl known)
      rcases run_keyText platform s e with ⟨can, s₁, run, evaluated⟩ | ⟨cannot, failure, run⟩
      · have passes := canEvaluate.mp can
        obtain ⟨s', linked, progress⟩ := followed.progress_linked (save platform depth)
          (fun heap => heap.children e.resource) sound parent reached known passes evaluated
        rw [run_saveBelow sound reached depth _ run]
        exact Or.inl ⟨s', linked, progress, List.forall_mem_singleton.mpr passes⟩
      · rw [refused failure run]
        exact .of_error fun good => cannot (canEvaluate.mpr (edge good.2))
    rw [DepthFirst.visit_succ_of_unseen known] at longer ⊢
    have next : D ++ [e] <+: plan.arrivals :=
      (DepthFirst.prefix_foldl (DepthFirst.prefix_visit _ _ depth) _ _).trans longer
    by_cases apart : ∀ r ∈ D.map Child.resource, plan.Apart r e.resource
    · -- the resource is stored, and its children are saved
      have canEvaluate := followed.canEvaluate_iff (Or.inr ⟨next, known, apart⟩)
      rcases run_keyText platform s e with ⟨can, s₁, run, evaluated⟩ | ⟨cannot, failure, run⟩
      · have passes := canEvaluate.mp can
        have stored := followed.stored next known apart evaluated passes (some p) (s.keyOf e)
          e.linkType
        have unknown := followed.unknown apart
        rw [← evaluated.uid_eq, ← evaluated.saved] at unknown
        have valid := followed.valid sound _ reached
        rw [← evaluated.uid_eq] at valid
        have arrived : e ∈ plan.arrivals :=
          next.subset (List.mem_append_right _ (List.mem_singleton.mpr rfl))
        have fewer := DepthFirst.unseen_append_lt reached known
        have onward := outcome_loop sound ih (plan.heap.children e.resource) _ _ stored
          (by rw [List.map_append]; exact List.mem_append_right _ (List.mem_singleton.mpr rfl))
          reached (sound.closed _ reached) (fun c inside good => good e arrived c inside)
          (by omega) longer
        rw [run_saveBelow sound reached depth _ run, run_save_of_unsaved valid unknown,
          congrFun stored.graph.children_eq e.resource]
        rcases onward with ⟨s', run', progress, passes'⟩ | ⟨bad, lost⟩
        · exact Or.inl ⟨s', run', followed.progress_stored parent next known apart evaluated
            progress passes', List.forall_mem_singleton.mpr passes⟩
        · exact Or.inr ⟨bad, lost⟩
      · rw [refused failure run]
        exact .of_error fun good => cannot (canEvaluate.mpr (edge good.2))
    · -- the resource is taken for another one
      have clash := not_allApart next apart
      rcases run_keyText platform s e with ⟨can, s₁, run, evaluated⟩ | ⟨cannot, failure, run⟩
      · have confused := (followed.confused sound ((List.prefix_append D [e]).trans next) reached
          known apart).evaluated evaluated
        have marked := confused.marked e.resource List.mem_cons_self
        rw [run_saveBelow sound reached depth _ run,
          run_save_of_saved (confused.valid _ reached) marked.1 marked.2]
        refine Or.inr ⟨fun good => clash good.1, fun a s' run' => ?_, fun allApart =>
          absurd allApart clash⟩
        obtain ⟨startNode, endNode, rfl⟩ := run_createLink_eq_ok run'
        exact ⟨_, _, confused.linked startNode endNode _ _⟩
      · rw [refused failure run]
        exact .of_error fun good => clash good.1

theorem nodup_resources (s : World) (stack : ℕ) (root : Child) :
    (s.savePlan stack root).resources.Nodup :=
  DepthFirst.nodup_visit stack root List.nodup_nil

/-- The resources of a plan are those that are reached, when the stack is deep enough. -/
theorem mem_resources_iff (root : Child) {stack : ℕ} {objects : List ResourceRef}
    (closed : DepthFirst.Closed s.heap.children Child.resource objects)
    (member : root.resource ∈ objects) (deep : objects.length < stack) {r : ResourceRef} :
    r ∈ (s.savePlan stack root).resources ↔
      DepthFirst.Reaches s.heap.children Child.resource root.resource r :=
  DepthFirst.mem_visit_nil_iff closed member deep

end SavePlan

/-- The contract of a save of `root` from the state `s`. It returns, and there is a new node
for each resource that is reached, and no other. Every new relationship leads from the
parent to the node of `root`, or from the node of a resource to that of a child of it, and has the
type that is meant. -/
def SavedInjectively (s : World) (root : ResourceRef) (parent : Option ℕ) (linkType : String)
    (result : EStateM.Result KBFailure World Unit) : Prop :=
  ∃ s' nodes relationships, result = .ok () s' ∧ s'.kb.nodes = s.kb.nodes ++ nodes ∧
    s'.kb.relationships = s.kb.relationships ++ relationships ∧ (nodes.map Node.id).Nodup ∧
    ∃ nodeOf : ResourceRef → ℕ,
      Set.BijOn nodeOf {r | DepthFirst.Reaches s.heap.children Child.resource root r}
        {id | id ∈ nodes.map Node.id} ∧
      (∀ r, DepthFirst.Reaches s.heap.children Child.resource root r →
        s'.id2object (nodeOf r) = some r) ∧
      ∀ rel ∈ relationships,
        (parent = some rel.startNode ∧ rel.endNode = nodeOf root ∧ rel.type = linkType) ∨
        ∃ r, DepthFirst.Reaches s.heap.children Child.resource root r ∧
          ∃ child ∈ s.heap.children r, rel.startNode = nodeOf r ∧
            rel.endNode = nodeOf child.resource ∧ rel.type = child.linkType

/-- The parent is a node, the resources that are reached are all told apart, and the texts that
become keys are accepted. -/
structure SavesApart (platform : Platform) (s : World) (stack : ℕ) (root : Child)
    (parent : Option ℕ) : Prop where
  parent : ∃ p, parent = some p ∧ s.kb.HasNode p
  apart : (s.savePlan stack root).AllApart
  pass : (s.savePlan stack root).AllPass platform

section Injective

variable {platform : Platform} {s : World} {stack : ℕ} {root : ResourceRef}
  {parent : Option ℕ} {key linkType : String} {objects : List ResourceRef}

/-- The call with which a save begins. -/
def rootCall (root : ResourceRef) (key linkType : String) : Child := ⟨root, linkType, .linkName key⟩

/-- A save begins below the node that stands in for the parent. -/
theorem run_saveAnew (sound : (s.savePlan stack (rootCall root key linkType)).Sound)
    (reached : root ∈ (s.savePlan stack (rootCall root key linkType)).resources) :
    (saveAnew platform stack root parent key linkType).run s =
      (saveBelow platform (save platform stack) (some (s.kb.getNodeById parent))
        (rootCall root key linkType)).run { s with saved := [] } := by
  change (save platform stack root parent key linkType).run { s with saved := [] } =
    (save platform stack root (some (s.kb.getNodeById parent)) key linkType).run
      { s with saved := [] }
  cases stack with
  | zero => rfl
  | succ depth =>
    rw [save_succ_of_recursive depth (sound.recursive root reached),
      run_save_of_unsaved (s := { s with saved := [] }) (sound.valid root reached)
        (Or.inr List.not_mem_nil),
      run_save_of_unsaved (s := { s with saved := [] }) (sound.valid root reached)
        (Or.inr List.not_mem_nil)]
    simp only [World.store, KB.addChild_getNodeById]

/-- The outcome of a save: all arrivals are made, or the run is lost. -/
theorem outcome_saveAnew (platform : Platform) (parent : Option ℕ)
    (sound : (s.savePlan stack (rootCall root key linkType)).Sound)
    (closed : DepthFirst.Closed s.heap.children Child.resource objects) (member : root ∈ objects)
    (deep : objects.length < stack) :
    (s.savePlan stack (rootCall root key linkType)).Outcome platform []
      (s.savePlan stack (rootCall root key linkType)).arrivals [rootCall root key linkType]
      (s.kb.getNodeById parent) { s with saved := [] }
      ((saveAnew platform stack root parent key linkType).run s) := by
  have reached : root ∈ (s.savePlan stack (rootCall root key linkType)).resources :=
    (SavePlan.mem_resources_iff (rootCall root key linkType) closed member deep).mpr .refl
  have fewer : (s.savePlan stack (rootCall root key linkType)).resources.length ≤ objects.length :=
    ((SavePlan.nodup_resources s stack _).subperm fun r inside => closed.mem_of_reaches member
      ((SavePlan.mem_resources_iff _ closed member deep).mp inside)).length_le
  rw [run_saveAnew sound reached]
  refine SavePlan.outcome_saveBelow sound stack [] _ _ _ (SavePlan.Followed.start s stack _)
    (s.kb.getNodeById parent).2 reached (fun _ key => nomatch key) ?_ (List.prefix_refl _)
  exact Nat.lt_of_le_of_lt (List.countP_le_length.trans fewer) deep

/-- What a run that makes all arrivals has added to the knowledge base. -/
theorem SavePlan.Progress.added {plan : SavePlan} {root : Child} {startNode : ℕ} {s s' : World}
    (progress : plan.Progress platform [] plan.arrivals [plan.relationship startNode root] s s')
    (before : s.kb = plan.kb) :
    s'.kb.nodes = plan.kb.nodes ++
        plan.arrivals.map (fun e => ⟨plan.nodeOf e.resource, plan.heap.exported e.resource⟩) ∧
      ∃ relationships, s'.kb.relationships = plan.kb.relationships ++ relationships ∧
        (relationships : Multiset Relationship) =
          {plan.relationship startNode root} + plan.due plan.arrivals := by
  refine ⟨progress.followed.nodes, ?_⟩
  obtain ⟨relationships, added⟩ := progress.extended
  rw [before] at added
  refine ⟨relationships, added.symm, ?_⟩
  have related := progress.related
  rw [before, ← added, ← Multiset.coe_add] at related
  refine add_left_cancel (a := (plan.kb.relationships : Multiset Relationship)) ?_
  rw [← add_assoc]
  simpa [due] using related

/-- A run that makes all arrivals keeps the contract, if the parent is a node. -/
theorem SavePlan.Progress.savedInjectively {s' : World}
    (closed : DepthFirst.Closed s.heap.children Child.resource objects) (member : root ∈ objects)
    (deep : objects.length < stack) (present : ∃ p, parent = some p ∧ s.kb.HasNode p)
    (progress : (s.savePlan stack (rootCall root key linkType)).Progress platform []
      (s.savePlan stack (rootCall root key linkType)).arrivals
      [(s.savePlan stack (rootCall root key linkType)).relationship (s.kb.getNodeById parent)
        (rootCall root key linkType)] { s with saved := [] } s') :
    SavedInjectively s root parent linkType (.ok () s') := by
  -- the arrivals are the resources that are reached, each of them once
  have reaches : ∀ r, r ∈ (s.savePlan stack (rootCall root key linkType)).resources ↔
      DepthFirst.Reaches s.heap.children Child.resource root r :=
    fun r => SavePlan.mem_resources_iff _ closed member deep
  have nodup := SavePlan.nodup_resources s stack (rootCall root key linkType)
  obtain ⟨nodes, relationships, added, made⟩ := progress.added rfl
  -- from here on only the heap and the knowledge base of the plan matter
  generalize planned : s.savePlan stack (rootCall root key linkType) = plan at *
  have graph : plan.heap = s.heap := by rw [← planned]; rfl
  have store : plan.kb = s.kb := by rw [← planned]; rfl
  have ids : (plan.arrivals.map fun e =>
      (⟨plan.nodeOf e.resource, plan.heap.exported e.resource⟩ : Node)).map Node.id =
        plan.resources.map plan.nodeOf := by
    rw [SavePlan.resources, List.map_map, List.map_map]
    rfl
  have distinct : ∀ r ∈ plan.resources, ∀ r' ∈ plan.resources,
      plan.nodeOf r = plan.nodeOf r' → r = r' := fun r inside _ _ => SavePlan.nodeOf_injOn inside
  refine ⟨s', _, relationships, rfl, store ▸ nodes, store ▸ added, ?_, plan.nodeOf,
    ⟨?_, ?_, ?_⟩, ?_, ?_⟩
  · rw [ids]
    exact List.Nodup.map_on distinct nodup
  · intro r reached
    rw [Set.mem_ofPred_eq, ids]
    exact List.mem_map_of_mem ((reaches r).mpr reached)
  · intro r reached r' reached' same
    exact distinct r ((reaches r).mpr reached) r' ((reaches r').mpr reached') same
  · intro id new
    rw [Set.mem_ofPred_eq, ids] at new
    obtain ⟨r, inside, same⟩ := List.mem_map.mp new
    exact ⟨r, (reaches r).mp inside, same⟩
  · exact fun r reached => progress.followed.registered r ((reaches r).mpr reached)
  · intro rel inside
    have due : rel ∈ ({plan.relationship (s.kb.getNodeById parent) (rootCall root key linkType)} +
        plan.due plan.arrivals : Multiset Relationship) := by
      rw [← made]
      exact inside
    rw [Multiset.mem_add, Multiset.mem_singleton] at due
    rcases due with rfl | due
    · obtain ⟨p, rfl, here⟩ := present
      refine Or.inl ⟨?_, rfl, rfl⟩
      rw [KB.getNodeById_of_hasNode here]
      rfl
    · obtain ⟨e, arrival, due⟩ := List.mem_flatMap.mp due
      obtain ⟨child, edge, rfl⟩ := List.mem_map.mp due
      exact Or.inr ⟨e.resource, (reaches _).mp (List.mem_map_of_mem arrival), child, graph ▸ edge,
        rfl, rfl, rfl⟩

/-- When the contract is kept, the parent is a node: otherwise the first relationship leads
from the reference node, which is not a new one. -/
theorem SavePlan.Progress.hasNode_parent {s' : World}
    (progress : (s.savePlan stack (rootCall root key linkType)).Progress platform []
      (s.savePlan stack (rootCall root key linkType)).arrivals
      [(s.savePlan stack (rootCall root key linkType)).relationship (s.kb.getNodeById parent)
        (rootCall root key linkType)] { s with saved := [] } s')
    (kept : SavedInjectively s root parent linkType (.ok () s')) :
    ∃ p, parent = some p ∧ s.kb.HasNode p := by
  obtain ⟨nodes, relationships, added, made⟩ := progress.added rfl
  obtain ⟨t, nodes', relationships', same, nodes_eq, added', -, nodeOf, bij, -, meant⟩ := kept
  cases same
  obtain rfl : relationships = relationships' := List.append_cancel_left (added.symm.trans added')
  have first : (s.savePlan stack (rootCall root key linkType)).relationship
      (s.kb.getNodeById parent) (rootCall root key linkType) ∈ relationships := by
    rw [← Multiset.mem_coe, made]
    exact Multiset.mem_add.mpr (Or.inl (Multiset.mem_singleton.mpr rfl))
  rcases meant _ first with ⟨here, -, -⟩ | ⟨r, reached, child, -, start, -, -⟩
  · exact ⟨_, here, (s.kb.getNodeById parent).2⟩
  · -- the number of the reference node would be one that was still to come
    have new := bij.mapsTo reached
    rw [Set.mem_ofPred_eq, ← List.append_cancel_left (nodes.symm.trans nodes_eq), List.map_map]
      at new
    obtain ⟨e, -, number⟩ := List.mem_map.mp new
    have old := (s.kb.getNodeById parent).2
    rw [KB.HasNode, show ((s.kb.getNodeById parent : ℕ)) = nodeOf r from start, ← number] at old
    exact absurd old (s.kb.upcoming_fresh _)

/-- A run that is lost does not keep the contract: it leaves a node too few. -/
theorem SavePlan.Lost.not_savedInjectively
    (closed : DepthFirst.Closed s.heap.children Child.resource objects) (member : root ∈ objects)
    (deep : objects.length < stack) {result : EStateM.Result KBFailure World Unit}
    (lost : (s.savePlan stack (rootCall root key linkType)).Lost result) :
    ¬ SavedInjectively s root parent linkType result := by
  rintro ⟨s', nodes, -, rfl, added, -, -, nodeOf, bij, -, -⟩
  obtain ⟨victim, done, confused⟩ := lost () s' rfl
  have reaches : ∀ r, r ∈ (s.savePlan stack (rootCall root key linkType)).resources ↔
      DepthFirst.Reaches s.heap.children Child.resource root r :=
    fun r => SavePlan.mem_resources_iff _ closed member deep
  have nodup := SavePlan.nodup_resources s stack (rootCall root key linkType)
  -- there would be a new node for each resource, but the victim has none
  have images : ((s.savePlan stack (rootCall root key linkType)).resources.map nodeOf).Nodup :=
    List.Nodup.map_on (fun r inside r' inside' same =>
      bij.injOn ((reaches r).mp inside) ((reaches r').mp inside') same) nodup
  have enough := (images.subperm fun id inside => by
    obtain ⟨r, reached, rfl⟩ := List.mem_map.mp inside
    exact bij.mapsTo ((reaches r).mp reached)).length_le
  have few := (confused.nodup.subperm confused.reached).length_le
  have count := confused.count
  rw [added, List.length_append] at count
  rw [List.length_map, List.length_map] at enough
  rw [List.length_cons] at few
  change s.kb.nodes.length + nodes.length = s.kb.nodes.length + done.length at count
  omega

/-- A save keeps its contract exactly when it can tell apart what it reaches. -/
theorem savedInjectively_iff (platform : Platform)
    (sound : (s.savePlan stack (rootCall root key linkType)).Sound)
    (closed : DepthFirst.Closed s.heap.children Child.resource objects) (member : root ∈ objects)
    (deep : objects.length < stack) :
    SavedInjectively s root parent linkType
        ((saveAnew platform stack root parent key linkType).run s) ↔
      SavesApart platform s stack (rootCall root key linkType) parent := by
  rcases outcome_saveAnew platform parent sound closed member deep with
    ⟨s', run, progress, -⟩ | ⟨bad, lost, -⟩
  · rw [run]
    constructor
    · intro kept
      exact ⟨progress.hasNode_parent kept, progress.followed.apart,
        fun e arrival => progress.passes e arrival List.not_mem_nil⟩
    · intro condition
      exact progress.savedInjectively closed member deep condition.parent
  · refine iff_of_false (lost.not_savedInjectively closed member deep) fun condition => ?_
    exact bad ⟨condition.apart, condition.pass⟩

/-- The plan of a save is sound when it reaches no link and the uids are valid. -/
theorem sound_savePlan {call : Child}
    (closed : DepthFirst.Closed s.heap.children Child.resource objects)
    (member : call.resource ∈ objects) (deep : objects.length < stack)
    (recursive : ∀ r, DepthFirst.Reaches s.heap.children Child.resource call.resource r →
      r.Recursive)
    (valid : ∀ r ∈ objects, ValidUid (s.heap.uid r)) : (s.savePlan stack call).Sound := by
  have reaches : ∀ r, r ∈ (s.savePlan stack call).resources ↔
      DepthFirst.Reaches s.heap.children Child.resource call.resource r :=
    fun r => SavePlan.mem_resources_iff _ closed member deep
  refine ⟨fun r inside e edge => ?_, fun r inside => ?_, fun r inside => ?_⟩
  · exact (reaches _).mpr (((reaches r).mp inside).tail ⟨e, edge, rfl⟩)
  · exact recursive r ((reaches r).mp inside)
  · exact valid r (closed.mem_of_reaches member ((reaches r).mp inside))

/-- From a concept or a phrase only concepts and phrases are reached. -/
theorem ResourceRef.Plain.recursive_of_reaches {heap : Heap} {root r : ResourceRef} (plain : root.Plain)
    (reaches : DepthFirst.Reaches heap.children Child.resource root r) : r.Recursive := by
  have kind : r.Plain := by
    induction reaches with
    | refl => exact plain
    | tail _ edge ih =>
      obtain ⟨child, member, rfl⟩ := edge
      exact ih.of_mem_children member
  exact kind.recursive

end Injective

/-- `Concept.save` keeps the contract of a save exactly when it can tell apart the concepts and
phrases that it reaches: for every graph of finitely many objects with valid uids, every
knowledge base, every parent and every sequence of node numbers. -/
theorem concept_savedInjectively_iff (platform : Platform) (s : World) (c : ConceptRef)
    (parent : Option ℕ) (key linkType : String) (objects : List ResourceRef)
    (closed : DepthFirst.Closed s.heap.children Child.resource objects)
    (member : .concept c ∈ objects) (valid : ∀ r ∈ objects, ValidUid (s.heap.uid r))
    (stack : ℕ) (deep : objects.length < stack) :
    SavedInjectively s (.concept c) parent linkType
        ((saveAnew platform stack (.concept c) parent key linkType).run s) ↔
      SavesApart platform s stack (rootCall (.concept c) key linkType) parent :=
  savedInjectively_iff platform
    (sound_savePlan closed member deep (fun _ => ResourceRef.Plain.recursive_of_reaches trivial) valid)
    closed member deep

/-! ### An instance whose number is that of a node

A concept without a uid has an instance, whose random number is `1`, as a
specialisation. The database gives the number `1` to the node of the concept. -/

/-- The concept, its instance, and a knowledge base with a reference node only. -/
def instanceNumbered : World where
  heap :=
    { uris := .ofList [{ name := "browser" }, { name := "browser", uid := "1" }]
      conceptLines := .ofList [{}, { frames := .ofList [(1, 1)] }, { frames := .ofList [(0, 0)] }]
      phraseLines := .ofList [{}]
      concepts := .ofList
        [{ generalisations := some 0, specialisations := some 1, phrases := some 0, uri := 0 },
          { generalisations := some 2, specialisations := some 0, phrases := some 0, uri := 1 }] }
  kb :=
    { nodes := [⟨0, {}⟩]
      relationships := []
      upcoming := Nat.succ
      upcoming_injective := Nat.succ_injective
      upcoming_fresh := by simp
      joined := List.forall_mem_nil _
      hasRoot := List.mem_singleton.mpr rfl }
  id2object _ := none

/-- The condition decides the contract for the concept and its instance. -/
theorem instanceNumbered_savedInjectively_iff :
    SavedInjectively instanceNumbered (.concept 0) (some 0) defaultLinkName
        ((saveAnew .plain 3 (.concept 0) (some 0) "browser" defaultLinkName).run
          instanceNumbered) ↔
      SavesApart .plain instanceNumbered 3 (rootCall (.concept 0) "browser" defaultLinkName)
        (some 0) := by
  refine concept_savedInjectively_iff .plain instanceNumbered 0 (some 0) "browser" defaultLinkName
    [.concept 0, .concept 1] ?_ (by decide) ?_ 3 (by decide)
  · unfold DepthFirst.Closed
    decide +kernel
  · intro r member
    rcases List.mem_pair.mp member with rfl | rfl
    · exact Or.inl rfl
    · exact Or.inr ⟨1, rfl⟩

/-- The instance is not stored: it is taken for the concept. -/
theorem instance_taken_for_concept :
    ¬ SavedInjectively instanceNumbered (.concept 0) (some 0) defaultLinkName
        ((saveAnew .plain 3 (.concept 0) (some 0) "browser" defaultLinkName).run
          instanceNumbered) := by
  rintro ⟨s', nodes, -, run, added, -, -, nodeOf, bij, -, -⟩
  have stored : (match (saveAnew .plain 3 (.concept 0) (some 0) "browser" defaultLinkName).run
      instanceNumbered with
    | .ok _ s' => s'.kb.nodes.length
    | .error _ _ => 0) = 2 := by decide +kernel
  rw [run] at stored
  change s'.kb.nodes.length = 2 at stored
  rw [added, List.length_append] at stored
  have single : nodes.length = 1 := Nat.add_left_cancel stored
  obtain ⟨node, rfl⟩ := List.length_eq_one_iff.mp single
  have edge : Heap.child specialisationLinkName (.concept 1) ∈
      instanceNumbered.heap.children (.concept 0) := by decide +kernel
  have concept := bij.mapsTo (x := .concept 0) .refl
  have instance_ := bij.mapsTo (x := .concept 1) (Relation.ReflTransGen.single ⟨_, edge, rfl⟩)
  rw [Set.mem_ofPred_eq, List.map_singleton, List.mem_singleton] at concept instance_
  have same := bij.injOn .refl (Relation.ReflTransGen.single ⟨_, edge, rfl⟩)
    (concept.trans instance_.symm)
  exact nomatch same

end ThinkingUnderstanding
