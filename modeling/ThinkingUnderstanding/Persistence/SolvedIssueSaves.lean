import ThinkingUnderstanding.Persistence.LoadsAlike
import ThinkingUnderstanding.Persistence.SavedTypes
import ThinkingUnderstanding.Persistence.SolutionSaves

/-!
# Saving a solved issue

The node of a solved issue is stored first, its network below it, and then its solution below the
node that the URI of the issue denotes. This is still its node when no object that is saved with
the network has the same URI object. What is stored later leaves the relationships of other types
as they are, and the nodes of the network with the relationships by which it is loaded.

## Main definitions

* `World.Spares` — the uid of a URI object has been left as it is
* `SolvedIssue.begun` — the state in which the node of the issue has been stored

## Main results

* `spares_save` — a save leaves the uids of URIs that no object has which is saved
* `SolvedIssue.SavesNetwork.run_save` — when a solved issue is saved
-/

namespace ThinkingUnderstanding

open Math Semantics Reporting

/-! ### URIs that a save leaves as they are -/

/-- The objects are those of the graph, and the uid of the URI object is the one given. -/
structure World.Spares (heap : Heap) (u : UriRef) (uid : String) (w : World) : Prop where
  graph : heap.SameGraph w.heap
  uid : w.uidOf u = uid

section Spares

variable {platform : Platform} {heap : Heap} {u : UriRef} {uid : String}

theorem World.Spares.modifyURI {w : World} (spares : w.Spares heap u uid) {v : UriRef}
    {f : KnowledgeURI → KnowledgeURI}
    (keeps : ∀ uri, f uri = { uri with uid := (f uri).uid, cached := (f uri).cached })
    (same : v = u → ∀ uri, (f uri).uid = uri.uid) :
    World.Spares heap u uid { w with heap := w.heap.modifyURI v f } where
  graph := spares.graph.trans (Heap.sameGraph_modifyURI _ _ keeps)
  uid := by
    change ((w.heap.modifyURI v f).uri u).uid = uid
    rw [Heap.uri_modifyURI]
    split_ifs with here
    · rw [same here.symm, ← here]
      exact spares.uid
    · exact spares.uid

theorem spares_keyText (child : Child) :
    Maintains (World.Spares heap u uid) (child.keyText platform) fun _ => True := by
  unfold Child.keyText
  cases child.key with
  | linkName text => exact maintains_pure trivial
  | resourceURI =>
    refine maintains_get_bind fun w _ => maintains_get_bind fun w' _ => ?_
    dsimp only
    split
    · exact maintains_pure trivial
    · split_ifs
      · refine Maintains.bind (Q := fun _ => True) (maintains_modify fun m spares => ?_)
          fun _ _ => maintains_pure trivial
        exact spares.modifyURI (fun _ => rfl) fun _ _ => rfl
      · exact maintains_throw _

theorem spares_get (r : ResourceRef) :
    Maintains (World.Spares heap u uid) (KBMap.get r) fun _ => True := by
  refine maintains_get_bind fun w _ => ?_
  dsimp only
  split_ifs
  · exact maintains_pure trivial
  · split
    · exact maintains_pure trivial
    · exact maintains_throw _

theorem spares_checkIfSaved (parent refObject : Option ℕ) (key linkType named : String) :
    Maintains (World.Spares heap u uid) (checkIfSaved parent key linkType refObject named)
      fun _ => True := by
  unfold checkIfSaved
  split
  · exact maintains_pure trivial
  · refine maintains_get_bind fun w _ => ?_
    split
    · refine Maintains.bind (Q := fun _ => True) (maintains_get_bind fun w spares => ?_)
        fun _ _ => maintains_pure trivial
      split
      · exact maintains_set ⟨spares.graph, spares.uid⟩
      · exact maintains_throw _
      · exact maintains_throw _
    · refine Maintains.bind (Q := fun _ => True) (maintains_modify fun m spares => ?_)
        fun _ _ => maintains_pure trivial
      exact ⟨spares.graph, spares.uid⟩

theorem spares_appendToSave (r : ResourceRef) :
    Maintains (World.Spares heap u uid) (appendToSave r) fun _ => True := by
  refine maintains_get_bind fun w _ => ?_
  dsimp only
  split_ifs
  · exact (maintains_throw (Q := fun _ => True) _).bind fun _ _ =>
      maintains_modify fun _ spares => ⟨spares.graph, spares.uid⟩
  · exact maintains_modify fun _ spares => ⟨spares.graph, spares.uid⟩

/-- A resource with another URI object is stored. -/
theorem spares_saveResource {r : ResourceRef} (other : heap.uriRef r ≠ u) (parent : Option ℕ)
    (key linkType : String) :
    Maintains (World.Spares heap u uid) (N4JKB.saveResource r parent key linkType)
      fun _ => True := by
  refine maintains_get_bind fun w spares =>
    Maintains.bind (maintains_set ⟨spares.graph, spares.uid⟩) fun _ _ => ?_
  refine maintains_modify fun m spares => ?_
  have renamed := spares.modifyURI (v := m.heap.uriRef r)
    (f := fun uri => { uri with uid := toString (w.kb.upcoming 0) }) (fun _ => rfl) fun same => by
      rw [spares.graph.uriRef_eq] at same
      exact absurd same other
  exact ⟨renamed.graph, renamed.uid⟩

/-- A save leaves the uid of a URI object that none of the objects has which it comes to. -/
theorem spares_save (platform : Platform) (stack : ℕ) (r : ResourceRef) (parent : Option ℕ)
    (key linkType : String)
    (others : ∀ r', DepthFirst.Reaches heap.children Child.resource r r' → heap.uriRef r' ≠ u) :
    Maintains (World.Spares heap u uid) (save platform stack r parent key linkType)
      fun _ => True := by
  -- on the stack; what a child reaches, the resource reaches too
  induction stack generalizing r parent key linkType with
  | zero => exact maintains_throw _
  | succ stack ih =>
    by_cases recursive : r.Recursive
    · rw [save_succ_of_recursive stack recursive]
      refine (spares_get r).bind fun refObject _ => maintains_get_bind fun w _ => ?_
      refine (spares_checkIfSaved _ _ _ _ _).bind fun known _ => ?_
      cases known with
      | true => exact maintains_pure trivial
      | false =>
        refine (spares_saveResource (others r .refl) _ _ _).bind fun _ _ => ?_
        refine (spares_appendToSave r).bind fun _ _ => maintains_get_bind fun w spares => ?_
        dsimp only
        rw [spares.graph.children_eq]
        refine Maintains.forM _ fun child edge => ?_
        refine (spares_get r).bind fun this _ => (spares_keyText child).bind fun text _ => ?_
        exact ih child.resource this text child.linkType fun r' below =>
          others r' (.head ⟨child, edge, rfl⟩ below)
    · cases r with
      | link l => exact spares_saveResource (others _ .refl) _ _ _
      | concept c => exact absurd trivial recursive
      | phrase p => exact absurd trivial recursive
      | network n => exact absurd trivial recursive

end Spares

/-! ### Relationships of other types -/

/-- With other types nothing is added to the relationships of the type. -/
theorem KB.kept_relationshipsOf {types : List String} {type : String} (other : type ∉ types)
    (kb : KB) : KB.Kept types fun kb' =>
      ∀ id, kb'.relationshipsOf id type = kb.relationshipsOf id type := by
  have rest : ∀ (kb' : KB) rel, rel.type ∈ types → ∀ id, (kb'.relationships ++ [rel]).filter
      (fun rel => (rel.startNode = id ∨ rel.endNode = id) ∧ rel.type = type) =
        kb'.relationshipsOf id type := by
    intro kb' rel member id
    have apart : rel.type ≠ type := fun same => other (same ▸ member)
    rw [List.filter_append, List.filter_cons_of_neg (by simp [apart]), List.filter_nil,
      List.append_nil]
    rfl
  exact
    { addChild := fun kb' _ _ _ _ member holds id => (rest kb' _ member id).trans (holds id)
      createRelationshipTo := fun kb' _ _ _ _ member holds id =>
        (rest kb' _ member id).trans (holds id) }

/-- A node stays. -/
theorem KB.kept_hasNode (types : List String) (id : ℕ) : KB.Kept types fun kb => kb.HasNode id where
  addChild _ _ _ _ _ _ present := KB.hasNode_addChild .. |>.mpr (Or.inl present)
  createRelationshipTo _ _ _ _ _ _ present := present

/-! ### The steps of the save -/

section Steps

variable {platform : Platform} {store : IssueStore} {callers : List CallSite} {stack : ℕ}
  {n : NetworkRef} {parent : Option ℕ} {key linkType : String} {r r' : RecordedWorld}

/-- Recorded or not, the network is saved alike, with a list buffer of its own. -/
theorem run_withEmptyList_eq_ok {ok : Bool}
    (run : (withEmptyList (Reporting.save platform (.n4jkb store) store stack callers
      (.graph (.network n)) parent key linkType)).run r = .ok ok r') :
    ∃ s₁, (saveAnew platform stack (.network n) parent key linkType).run r.toWorld = .ok () s₁ ∧
      r'.toWorld = { s₁ with saved := r.saved } := by
  obtain ⟨_, _, read, run⟩ := run_bind_eq_ok_iff.mp run
  cases read
  obtain ⟨_, _, emptied, run⟩ := run_bind_eq_ok_iff.mp run
  cases emptied
  obtain ⟨ok, m, saved, run⟩ := run_bind_eq_ok_iff.mp run
  cases run
  have bare := forgets_save platform store stack callers (.network n) parent key linkType
    { r with saved := [] }
  rw [saved] at bare
  exact ⟨m.toWorld, bare.symm, rfl⟩

theorem run_withEmptyList_of_saveAnew (store : IssueStore) (callers : List CallSite) {s₁ : World}
    (run : (saveAnew platform stack (.network n) parent key linkType).run r.toWorld = .ok () s₁) :
    ∃ ok r', (withEmptyList (Reporting.save platform (.n4jkb store) store stack callers
        (.graph (.network n)) parent key linkType)).run r = .ok ok r' ∧
      r'.toWorld = { s₁ with saved := r.saved } := by
  have bare := forgets_save platform store stack callers (.network n) parent key linkType
    { r with saved := [] }
  change _ = (saveAnew platform stack (.network n) parent key linkType).run r.toWorld at bare
  rw [run] at bare
  cases saved : (Reporting.save platform (.n4jkb store) store stack callers (.graph (.network n))
      parent key linkType).run { r with saved := [] } with
  | error e m =>
    rw [saved] at bare
    exact nomatch bare
  | ok ok m =>
    rw [saved] at bare
    obtain ⟨-, same⟩ := EStateM.Result.ok.inj bare
    refine ⟨ok, { m with saved := r.saved }, ?_,
      congrArg (fun w => { w with saved := r.saved }) same⟩
    exact run_bind_eq_ok_iff.mpr ⟨r, r, rfl, run_bind_eq_ok_iff.mpr ⟨⟨⟩, _, rfl,
      run_bind_eq_ok_iff.mpr ⟨ok, m, saved, rfl⟩⟩⟩

end Steps

namespace SolvedIssue

variable {platform : Platform} {store : IssueStore} {stack i : ℕ} {parent : Option ℕ}
  {key linkType : String} {s : World}

/-- The state in which the node of a solved issue has been stored. -/
def begun (store : IssueStore) (i : ℕ) (parent : Option ℕ) (key linkType : String) (s : World) :
    World :=
  s.addResource (store.solvedIssue i).uri (Heap.exportedResource
    (s.heap.uri (store.solvedIssue i).uri) (store.solvedIssue i).probability) parent key linkType

/-- The network of a solved issue is saved below its node. -/
def SavesNetwork (platform : Platform) (store : IssueStore) (stack i : ℕ) (parent : Option ℕ)
    (key linkType : String) (s s₁ : World) : Prop :=
  (saveAnew platform stack (.network (store.solvedIssue i).issue) (some (s.kb.upcoming 0)) ""
    conceptsNetworkName).run (begun store i parent key linkType s) = .ok () s₁

theorem sameGraph_begun (store : IssueStore) (i : ℕ) (parent : Option ℕ) (key linkType : String)
    (s : World) : s.heap.SameGraph (begun store i parent key linkType s).heap :=
  Heap.sameGraph_modifyURI _ _ fun _ => rfl

theorem uidOf_begun (store : IssueStore) (i : ℕ) (parent : Option ℕ) (key linkType : String)
    (s : World) : (begun store i parent key linkType s).uidOf (store.solvedIssue i).uri =
      toString (s.kb.upcoming 0) := by
  rw [begun, World.uidOf_addResource, if_pos rfl]

/-- The URI of the issue denotes its node. -/
theorem run_getURI_begun (store : IssueStore) (i : ℕ) (parent : Option ℕ) (key linkType : String)
    (s : World) (log : List PerformedOperation) :
    (unrecorded (KBMap.getURI (store.solvedIssue i).uri)).run
        { begun store i parent key linkType s with log := log } =
      .ok (some (s.kb.upcoming 0)) { begun store i parent key linkType s with log := log } :=
  (onPart_unrecorded _).run_of_ok (KBMap.run_getURI (uidOf_begun store i parent key linkType s))

/-- What new nodes and relationships keep is kept while the network is saved. -/
theorem SavesNetwork.kept {s₁ : World} {P : KB → Prop}
    (saves : SavesNetwork platform store stack i parent key linkType s s₁)
    (kept : KB.Kept networkTypes P) (holds : P (begun store i parent key linkType s).kb) :
    P s₁.kb := by
  obtain ⟨ok, r', run, same⟩ := run_withEmptyList_of_saveAnew store [.issue]
    (r := { begun store i parent key linkType s with log := [] }) saves
  have ended := (Reporting.maintains_withEmptyList (Reporting.maintains_save kept stack [.issue]
    (.graph (.network _)) _ _ _ (List.subset_cons_self _ _)
    List.mem_cons_self)).keeps_of_run run holds
  rwa [same] at ended

/-- If a solved issue is saved, so is its network. -/
theorem exists_savesNetwork_of_run {res : Bool} {t : RecordedWorld}
    (run : recordedSave platform (.n4jkb store) store (stack + 1) s (.solvedIssue i) parent key
      linkType = .ok res t) :
    ∃ s₁, SavesNetwork platform store stack i parent key linkType s s₁ := by
  obtain ⟨_, m, stored, run⟩ := run_bind_eq_ok_iff.mp run
  cases stored
  obtain ⟨this, m, asked, run⟩ := run_bind_eq_ok_iff.mp run
  have denotes := run_getURI_begun store i parent key linkType s
    [⟨[], .saveResource (.solvedIssue i) parent key linkType, true⟩]
  obtain ⟨rfl, rfl⟩ := EStateM.Result.ok.inj (denotes.symm.trans asked)
  obtain ⟨ok, r₁, saved, -⟩ := run_bind_eq_ok_iff.mp run
  obtain ⟨s₁, saves, -⟩ := run_withEmptyList_eq_ok saved
  exact ⟨s₁, saves⟩

variable (own : ∀ r, DepthFirst.Reaches s.heap.children Child.resource
  (.network (store.solvedIssue i).issue) r → s.heap.uriRef r ≠ (store.solvedIssue i).uri)
include own

/-- Once the network has been saved, the URI of the issue still denotes its node. -/
theorem SavesNetwork.spares {s₁ : World}
    (saves : SavesNetwork platform store stack i parent key linkType s s₁) :
    s₁.Spares s.heap (store.solvedIssue i).uri (toString (s.kb.upcoming 0)) := by
  have run : (save platform stack (.network (store.solvedIssue i).issue) (some (s.kb.upcoming 0)) ""
      conceptsNetworkName).run { begun store i parent key linkType s with saved := [] } =
        .ok () s₁ := saves
  exact (spares_save platform stack _ _ _ _ own).keeps_of_run run
    ⟨sameGraph_begun store i parent key linkType s, uidOf_begun store i parent key linkType s⟩

/-- Then the solution is saved below it. -/
theorem SavesNetwork.run_save {s₁ : World}
    (saves : SavesNetwork platform store stack i parent key linkType s s₁) :
    ∃ r₁ : RecordedWorld, r₁.toWorld = { s₁ with saved := s.saved } ∧
      recordedSave platform (.n4jkb store) store (stack + 1) s (.solvedIssue i) parent key
          linkType =
        (Solution.save platform (.n4jkb store) store
          (Reporting.save platform (.n4jkb store) store stack) [.solution]
          (store.solvedIssue i).solution (some (s.kb.upcoming 0)) "" solutionName).run r₁ := by
  let r₀ : RecordedWorld := { begun store i parent key linkType s with
    log := [⟨[], .saveResource (.solvedIssue i) parent key linkType, true⟩] }
  obtain ⟨ok, r₁, run, same⟩ := run_withEmptyList_of_saveAnew store [.issue]
    (r := r₀) saves
  have denotes : (unrecorded (KBMap.getURI (store.solvedIssue i).uri)).run r₀ =
      .ok (some (s.kb.upcoming 0)) r₀ := run_getURI_begun store i parent key linkType s _
  have still : r₁.uidOf (store.solvedIssue i).uri = toString (s.kb.upcoming 0) := by
    rw [same]
    exact (saves.spares own).uid
  have denotes' : (unrecorded (KBMap.getURI (store.solvedIssue i).uri)).run r₁ =
      .ok (some (s.kb.upcoming 0)) r₁ :=
    (onPart_unrecorded _).run_of_ok (KBMap.run_getURI still)
  refine ⟨r₁, same, ?_⟩
  change (SolvedIssue.save platform (.n4jkb store) store
    (Reporting.save platform (.n4jkb store) store stack) [] i parent key linkType).run
      { s with log := [] } = _
  have stored : (saveResource (.n4jkb store) [] (.solvedIssue i) parent key linkType).run
      { s with log := [] } = .ok true r₀ := rfl
  rw [SolvedIssue.save, EStateM.run_bind, stored]
  dsimp only
  rw [EStateM.run_bind, denotes]
  dsimp only
  rw [EStateM.run_bind, run]
  dsimp only
  rw [EStateM.run_bind, denotes']

end SolvedIssue

end ThinkingUnderstanding
