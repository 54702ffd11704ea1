import ThinkingUnderstanding.Persistence.NarrativeSaves
import ThinkingUnderstanding.Persistence.SavesAlike

/-!
# Saving a solution whose HowTos have no parameters

Each HowTo is stored as a node of its own, under the text of its URI, below the node that the
URI of the solution denotes. This is the node of the solution, until a HowTo is saved that
has the same URI object: from then on it is the node of that HowTo.

## Main definitions

* `World.Gains` — nodes and relationships have been added, and no text has been changed
* `howToRelationships` — the relationships by which HowTos are stored

## Main results

* `Solution.run_saveHowTos` — the HowTos of a solution are stored
* `Solution.accepted_of_run_saveHowTos` — if they are, the texts of their URIs are accepted
* `own_of_howToRelationships` — when all of them are below the solution
-/

namespace ThinkingUnderstanding

open Math Semantics Reporting

/-! ### What is added -/

/-- The state after a resource that has the URI is stored. -/
def World.addResource (w : World) (u : UriRef) (properties : Properties) (parent : Option ℕ)
    (key linkType : String) : World :=
  { w with
    heap := w.heap.modifyURI u fun uri => { uri with uid := toString (w.kb.upcoming 0) }
    kb := w.kb.addChild properties parent linkType key }

/-- Nodes and relationships have been added, and every URI has kept its text. The table of the
concepts, phrases and networks is as it was. -/
structure World.Gains (platform : Platform) (w w' : World) (added : List Node)
    (rels : List Relationship) : Prop where
  nodes : w'.kb.nodes = w.kb.nodes ++ added
  relationships : w'.kb.relationships = w.kb.relationships ++ rels
  upcoming : ∀ i, w'.kb.upcoming i = w.kb.upcoming (i + added.length)
  id2object : w'.id2object = w.id2object
  graph : w.heap.SameGraph w'.heap
  texts : ∀ u, w'.textOf u = w.textOf u
  accepted : ∀ u, (w'.heap.uri u).Accepted platform ↔ (w.heap.uri u).Accepted platform

namespace World

variable {platform : Platform} {w w' w'' : World}

theorem Gains.refl (w : World) : w.Gains platform w [] [] where
  nodes := (List.append_nil _).symm
  relationships := (List.append_nil _).symm
  upcoming _ := rfl
  id2object := rfl
  graph := .refl _
  texts _ := rfl
  accepted _ := Iff.rfl

theorem Gains.trans {added added' : List Node} {rels rels' : List Relationship}
    (first : w.Gains platform w' added rels) (second : w'.Gains platform w'' added' rels') :
    w.Gains platform w'' (added ++ added') (rels ++ rels') where
  nodes := by rw [second.nodes, first.nodes, List.append_assoc]
  relationships := by rw [second.relationships, first.relationships, List.append_assoc]
  upcoming i := by
    rw [second.upcoming, first.upcoming, List.length_append]
    exact congrArg w.kb.upcoming (by omega)
  id2object := second.id2object.trans first.id2object
  graph := first.graph.trans second.graph
  texts u := (second.texts u).trans (first.texts u)
  accepted u := (second.accepted u).trans (first.accepted u)

theorem Gains.hasNode {added : List Node} {rels : List Relationship}
    (gains : w.Gains platform w' added rels) {id : ℕ} (present : w.kb.HasNode id) :
    w'.kb.HasNode id := by
  rw [KB.HasNode, gains.nodes, List.map_append]
  exact List.mem_append_left _ present

/-- A resource is stored after the text of its URI has been asked for. -/
theorem Asked.gains_addResource {u : UriRef} (asked : Asked u w w')
    (accepted : (w.heap.uri u).Accepted platform) (properties : Properties) (parent : Option ℕ)
    (key linkType : String) :
    w.Gains platform (w'.addResource u properties parent key linkType)
      [⟨w.kb.upcoming 0, properties⟩]
      [⟨w.kb.getNodeById parent, w.kb.upcoming 0, linkType, key⟩] := by
  have stored : ∀ v, (w'.addResource u properties parent key linkType).heap.uri v =
      if v = u then { w'.heap.uri u with uid := toString (w'.kb.upcoming 0) }
      else w'.heap.uri v := fun v => Heap.uri_modifyURI _ _ _ _
  constructor
  case nodes =>
    change w'.kb.nodes ++ [⟨w'.kb.upcoming 0, properties⟩] = _
    rw [asked.kb]
  case relationships =>
    change w'.kb.relationships ++ [⟨w'.kb.getNodeById parent, w'.kb.upcoming 0, linkType, key⟩] = _
    rw [asked.kb]
  case upcoming =>
    intro i
    change w'.kb.upcoming (i + 1) = w.kb.upcoming (i + 1)
    rw [asked.kb]
  case id2object => exact asked.id2object
  case graph => exact asked.graph.trans (Heap.sameGraph_modifyURI _ _ fun _ => rfl)
  case texts =>
    -- the text of this URI is kept, so that the uid it is given now does not change it
    intro v
    rw [World.textOf, stored, ← asked.textOf v, World.textOf]
    split_ifs with here
    · rw [here, KnowledgeURI.text, KnowledgeURI.text, asked.cached]
      rfl
    · rfl
  case accepted =>
    intro v
    rw [stored]
    split_ifs with here
    · rw [here]
      refine iff_of_true (fun absent => ?_) accepted
      have kept : (w'.heap.uri u).cached = none := absent
      rw [asked.cached] at kept
      exact absurd kept (Option.some_ne_none _)
    · rw [asked.others v here]

theorem uidOf_addResource (w : World) (u v : UriRef) (properties : Properties) (parent : Option ℕ)
    (key linkType : String) : (w.addResource u properties parent key linkType).uidOf v =
      if v = u then toString (w.kb.upcoming 0) else w.uidOf v := by
  change ((w.heap.modifyURI u _).uri v).uid = _
  rw [Heap.uri_modifyURI]
  split_ifs <;> rfl

end World

/-! ### The relationships of HowTos -/

section Relationships

variable (uri : ℕ → UriRef) (text : UriRef → String) (u : UriRef)

/-- The relationships by which HowTos are stored as the nodes that are numbered by `next`: the URI
of the solution denotes `node` at first. -/
def howToRelationships (node : ℕ) (next : ℕ → ℕ) : List ℕ → List Relationship
  | [] => []
  | x :: xs => ⟨node, next 0, defaultLinkName, text (uri x)⟩ ::
      howToRelationships (if uri x = u then next 0 else node) (fun i => next (i + 1)) xs

variable {uri text u} {node : ℕ} {next : ℕ → ℕ}

theorem map_key_howToRelationships (xs : List ℕ) :
    (howToRelationships uri text u node next xs).map Relationship.key =
      xs.map fun x => text (uri x) := by
  induction xs generalizing node next with
  | nil => rfl
  | cons x xs ih => exact congrArg (_ :: ·) ih

theorem length_howToRelationships (xs : List ℕ) :
    (howToRelationships uri text u node next xs).length = xs.length := by
  rw [← List.length_map Relationship.key, map_key_howToRelationships, List.length_map]

/-- They are of the default type, and end at new nodes. -/
theorem forall_howToRelationships (xs : List ℕ) :
    ∀ rel ∈ howToRelationships uri text u node next xs, rel.type = defaultLinkName ∧
      (rel.startNode = node ∨ ∃ i, rel.startNode = next i) ∧ ∃ i, rel.endNode = next i := by
  induction xs generalizing node next with
  | nil => exact List.forall_mem_nil _
  | cons x xs ih =>
    refine List.forall_mem_cons.mpr ⟨⟨rfl, Or.inl rfl, 0, rfl⟩, fun rel later => ?_⟩
    obtain ⟨type, starts, i, ends⟩ := ih rel later
    refine ⟨type, ?_, i + 1, ends⟩
    rcases starts with same | ⟨j, same⟩
    · split_ifs at same
      · exact Or.inr ⟨0, same⟩
      · exact Or.inl same
    · exact Or.inr ⟨j + 1, same⟩

/-- When no HowTo but the last has the URI of the solution, they are stored in order below it. -/
theorem howToRelationships_eq_map {xs : List ℕ} (own : ∀ x ∈ xs.dropLast, uri x ≠ u) :
    howToRelationships uri text u node next xs = (xs.mapIdx fun j x => (x, next j)).map
      fun entry => ⟨node, entry.2, defaultLinkName, text (uri entry.1)⟩ := by
  induction xs generalizing next with
  | nil => rfl
  | cons x xs ih =>
    rw [List.mapIdx_cons, List.map_cons, howToRelationships]
    refine congrArg (_ :: ·) ?_
    cases xs with
    | nil => rfl
    | cons y ys =>
      rw [List.dropLast_cons_cons, List.forall_mem_cons] at own
      rw [if_neg own.1]
      exact ih own.2

/-- If all of them start at the node of the solution, no HowTo but the last has its URI. -/
theorem own_of_howToRelationships {xs : List ℕ} (new : ∀ i, next i ≠ node)
    (below : ∀ rel ∈ howToRelationships uri text u node next xs, rel.startNode = node) :
    ∀ x ∈ xs.dropLast, uri x ≠ u := by
  induction xs generalizing next with
  | nil => exact List.forall_mem_nil _
  | cons x xs ih =>
    have rest := (List.forall_mem_cons.mp below).2
    cases xs with
    | nil => exact List.forall_mem_nil _
    | cons y ys =>
      have other : uri x ≠ u := by
        intro same
        rw [if_pos same] at rest
        exact new 0 (rest _ List.mem_cons_self)
      rw [if_neg other] at rest
      rw [List.dropLast_cons_cons]
      exact List.forall_mem_cons.mpr ⟨other, ih (fun i => new (i + 1)) rest⟩

end Relationships

/-! ### The methods -/

section Methods

variable {platform : Platform} {store : IssueStore} {save : Reporting.Saver}
  {callers : List CallSite}
  {i x : ℕ} {parent : Option ℕ} {key linkType : String} {s : RecordedWorld}

/-- The properties with which a HowTo is stored. -/
def IssueStore.howToProperties (store : IssueStore) (heap : Heap) (x : ℕ) : Properties :=
  Heap.exportedResource (heap.uri (store.howTo x).uri) (store.howTo x).probability

theorem howToProperties_of_sameGraph {heap heap' : Heap} (same : heap.SameGraph heap') :
    store.howToProperties heap' = store.howToProperties heap := by
  funext x
  unfold IssueStore.howToProperties
  rw [same.fields (store.howTo x).uri]
  rfl

/-- A turn of the loop of `Solution.save`. -/
def Solution.saveHowTo (platform : Platform) (store : IssueStore) (save : Reporting.Saver)
    (callers : List CallSite) (u : UriRef) (res : Bool) (x : ℕ) : SaveProgram Bool := do
  let this ← unrecorded (KBMap.getURI u)
  let key ← unrecorded (uriText platform (store.howTo x).uri)
  let ok ← HowTo.save platform (.n4jkb store) store save (.howTo :: callers) x this key
    defaultLinkName
  return res && ok

theorem Solution.save_eq :
    Solution.save platform (.n4jkb store) store save callers i parent key linkType =
      (do
        let res ← saveResource (.n4jkb store) callers (.solution i) parent key linkType
        (store.solution i).resources.foldlM
          (Solution.saveHowTo platform store save callers (store.solution i).uri) res) := rfl

/-- A solution is stored. -/
theorem run_saveSolution_resource (store : IssueStore) (callers : List CallSite) (i : ℕ)
    (parent : Option ℕ) (key linkType : String) (s : RecordedWorld) :
    ∃ t, (saveResource (.n4jkb store) callers (.solution i) parent key linkType).run s =
        .ok true t ∧
      t.toWorld = s.toWorld.addResource (store.solution i).uri (Heap.exportedResource
        (s.heap.uri (store.solution i).uri) (store.solution i).probability) parent key linkType :=
  ⟨_, rfl, rfl⟩

/-- A HowTo without parameters is stored as a node. -/
theorem HowTo.run_save_of_plain (platform : Platform) (save : Reporting.Saver)
    (callers : List CallSite) (parent : Option ℕ) (key linkType : String) (s : RecordedWorld)
    (plain : (store.howTo x).parameters = []) :
    ∃ t, (HowTo.save platform (.n4jkb store) store save callers x parent key linkType).run s =
        .ok true t ∧
      t.toWorld = s.toWorld.addResource (store.howTo x).uri
        (store.howToProperties s.heap x) parent key linkType := by
  rw [HowTo.save, plain]
  exact ⟨_, rfl, rfl⟩

theorem Solution.run_saveHowTo_of_refused {u : UriRef} {node : ℕ} (save : Reporting.Saver)
    (callers : List CallSite) (res : Bool) (denotes : s.uidOf u = toString node)
    (refused : ¬ (s.heap.uri (store.howTo x).uri).Accepted platform) :
    ∃ e, (Solution.saveHowTo platform store save callers u res x).run s = .error e s := by
  obtain ⟨e, run⟩ := run_uriText_of_not_accepted refused
  have first : (unrecorded (KBMap.getURI u)).run s = .ok (some node) s :=
    (onPart_unrecorded _).run_of_ok (KBMap.run_getURI denotes)
  have second : (unrecorded (uriText platform (store.howTo x).uri)).run s = .error e s :=
    (onPart_unrecorded _).run_of_error run
  refine ⟨e, ?_⟩
  rw [Solution.saveHowTo, EStateM.run_bind, first]
  dsimp only
  rw [EStateM.run_bind, second]

/-- A HowTo without parameters is stored below the node that the URI of the solution denotes. -/
theorem Solution.run_saveHowTo {u : UriRef} {node : ℕ} (save : Reporting.Saver)
    (callers : List CallSite) (res : Bool) (denotes : s.uidOf u = toString node)
    (present : s.kb.HasNode node)
    (accepted : (s.heap.uri (store.howTo x).uri).Accepted platform)
    (plain : (store.howTo x).parameters = []) :
    ∃ t, (Solution.saveHowTo platform store save callers u res x).run s = .ok res t ∧
      s.toWorld.Gains platform t.toWorld [⟨s.kb.upcoming 0, store.howToProperties s.heap x⟩]
        [⟨node, s.kb.upcoming 0, defaultLinkName, s.textOf (store.howTo x).uri⟩] ∧
      t.uidOf u = toString (if (store.howTo x).uri = u then s.kb.upcoming 0 else node) ∧
      t.kb.HasNode (if (store.howTo x).uri = u then s.kb.upcoming 0 else node) := by
  obtain ⟨w, run, asked⟩ := run_uriText_of_accepted accepted
  obtain ⟨t, saved, stored⟩ := HowTo.run_save_of_plain platform save (.howTo :: callers) (some node)
    (s.textOf (store.howTo x).uri) defaultLinkName { s with toWorld := w } plain
  have gains := asked.gains_addResource accepted (store.howToProperties w.heap x) (some node)
    (s.textOf (store.howTo x).uri) defaultLinkName
  rw [KB.getNodeById_of_hasNode present] at gains
  refine ⟨t, ?_, ?_, ?_, ?_⟩
  · refine run_bind_eq_ok_iff.mpr
      ⟨_, _, (onPart_unrecorded _).run_of_ok (KBMap.run_getURI denotes), ?_⟩
    refine run_bind_eq_ok_iff.mpr ⟨_, _, (onPart_unrecorded _).run_of_ok run, ?_⟩
    refine run_bind_eq_ok_iff.mpr ⟨true, t, saved, ?_⟩
    exact congrArg (EStateM.Result.ok · t) (Bool.and_true res)
  · rw [stored]
    rwa [howToProperties_of_sameGraph asked.graph] at gains ⊢
  · rw [stored, World.uidOf_addResource]
    change (if u = _ then toString (w.kb.upcoming 0) else w.uidOf u) = _
    rw [asked.kb, asked.uidOf, denotes]
    by_cases here : (store.howTo x).uri = u
    · rw [if_pos here, if_pos here.symm]
    · rw [if_neg here, if_neg (Ne.symm here)]
  · rw [stored]
    split_ifs
    · rw [KB.HasNode, gains.nodes, List.map_append]
      exact List.mem_append_right _ List.mem_cons_self
    · exact gains.hasNode present

/-- The nodes as which HowTos are stored. -/
def IssueStore.howToNodes (store : IssueStore) (s : World) (xs : List ℕ) : List Node :=
  xs.mapIdx fun j x => ⟨s.kb.upcoming j, store.howToProperties s.heap x⟩

/-- The relationships by which HowTos are stored below a solution with the URI. -/
def IssueStore.howToRelationships (store : IssueStore) (s : World) (u : UriRef) (node : ℕ)
    (xs : List ℕ) : List Relationship :=
  ThinkingUnderstanding.howToRelationships (fun x => (store.howTo x).uri) s.textOf u node
    s.kb.upcoming xs

/-- HowTos without parameters, the texts of whose URIs are accepted, are stored. -/
theorem Solution.run_saveHowTos {u : UriRef} {node : ℕ} {xs : List ℕ} (save : Reporting.Saver)
    (callers : List CallSite) (res : Bool) (denotes : s.uidOf u = toString node)
    (present : s.kb.HasNode node)
    (accepted : ∀ x ∈ xs, (s.heap.uri (store.howTo x).uri).Accepted platform)
    (plain : ∀ x ∈ xs, (store.howTo x).parameters = []) :
    ∃ t, (xs.foldlM (Solution.saveHowTo platform store save callers u) res).run s = .ok res t ∧
      s.toWorld.Gains platform t.toWorld (store.howToNodes s.toWorld xs)
        (store.howToRelationships s.toWorld u node xs) := by
  induction xs generalizing s node with
  | nil => exact ⟨s, rfl, .refl s.toWorld⟩
  | cons x xs ih =>
    rw [List.forall_mem_cons] at accepted plain
    obtain ⟨m, first, gains, denotes', present'⟩ := Solution.run_saveHowTo save callers res
      denotes present accepted.1 plain.1
    obtain ⟨t, rest, gains'⟩ := ih denotes' present'
      (fun y later => (gains.accepted _).mpr (accepted.2 y later)) plain.2
    refine ⟨t, ?_, ?_⟩
    · rw [List.foldlM_cons]
      exact run_bind_eq_ok_iff.mpr ⟨res, m, first, rest⟩
    · -- what is stored in the rest of the loop is the same as seen from the start
      have texts : m.textOf = s.textOf := funext gains.texts
      have numbers : m.kb.upcoming = fun j => s.kb.upcoming (j + 1) := funext gains.upcoming
      have whole := gains.trans gains'
      rw [IssueStore.howToNodes, howToProperties_of_sameGraph gains.graph,
        IssueStore.howToRelationships, texts, numbers] at whole
      rw [IssueStore.howToNodes, List.mapIdx_cons]
      exact whole

/-- If the HowTos are stored, the texts of their URIs are accepted. -/
theorem Solution.accepted_of_run_saveHowTos {u : UriRef} {node : ℕ} {res res' : Bool} {xs : List ℕ}
    {t : RecordedWorld} (denotes : s.uidOf u = toString node) (present : s.kb.HasNode node)
    (plain : ∀ x ∈ xs, (store.howTo x).parameters = [])
    (run : (xs.foldlM (Solution.saveHowTo platform store save callers u) res).run s = .ok res' t) :
    ∀ x ∈ xs, (s.heap.uri (store.howTo x).uri).Accepted platform := by
  induction xs generalizing s node res with
  | nil => exact List.forall_mem_nil _
  | cons x xs ih =>
    rw [List.forall_mem_cons] at plain ⊢
    rw [List.foldlM_cons] at run
    obtain ⟨ok, m, first, rest⟩ := run_bind_eq_ok_iff.mp run
    have accepted : (s.heap.uri (store.howTo x).uri).Accepted platform := by
      by_contra refused
      obtain ⟨e, failed⟩ := Solution.run_saveHowTo_of_refused save callers res denotes refused
      exact nomatch failed.symm.trans first
    obtain ⟨m', first', gains, denotes', present'⟩ := Solution.run_saveHowTo save callers res
      denotes present accepted plain.1
    obtain ⟨rfl, rfl⟩ := EStateM.Result.ok.inj (first'.symm.trans first)
    exact ⟨accepted, fun y later =>
      (gains.accepted _).mp (ih denotes' present' plain.2 rest y later)⟩

end Methods

end ThinkingUnderstanding
