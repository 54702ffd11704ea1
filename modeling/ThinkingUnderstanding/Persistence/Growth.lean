import ThinkingUnderstanding.Persistence.Extended
import ThinkingUnderstanding.Persistence.LongTermMemory

/-!
# What the persistence layer leaves as it was

A load makes new objects and registers them under nodes that had none. It assigns to no
object that was there before, except for the text of a URI when it is first asked for. A
save adds nodes and relationships and gives uids to what it stores. Both hold of every run,
whether it returns or raises an exception.

## Main definitions

* `Heap.Frames` — what a change of the heap leaves as it was
* `World.Loads` — the second state has been reached from the first by loading
* `World.Grows` — the second state has been reached from the first by loading, and by saving
  under a key

## Main results

* `respects_save`, `respects_saveAnew` — a save respects `World.Grows`
* `World.Extended.loads`, `run_loadNetwork_eq_ok` — a load respects `World.Loads`
-/

namespace ThinkingUnderstanding

open Math Semantics

/-- What a change of the heap leaves as it was, apart from the given concept and network. -/
structure Heap.Frames (heap heap' : Heap) (c : Option ConceptRef) (n : Option NetworkRef) :
    Prop where
  networks : ∀ i < heap.networks.size, i < heap'.networks.size ∧
    (some i ≠ n → heap'.network i = heap.network i)
  concepts : ∀ i < heap.concepts.size, i < heap'.concepts.size ∧
    (some i ≠ c → heap'.concept i = heap.concept i)
  links : ∀ i < heap.links.size, i < heap'.links.size ∧ heap'.link i = heap.link i
  uris : ∀ u text, (heap.uri u).cached = some text → (heap'.uri u).cached = some text

namespace Heap.Frames

variable {heap : Heap}

theorem refl (heap : Heap) (c : Option ConceptRef) (n : Option NetworkRef) :
    heap.Frames heap c n :=
  ⟨fun _ below => ⟨below, fun _ => rfl⟩, fun _ below => ⟨below, fun _ => rfl⟩,
    fun _ below => ⟨below, rfl⟩, fun _ _ cached => cached⟩

theorem size_networks_le {heap' : Heap} {c : Option ConceptRef} {n : Option NetworkRef}
    (frames : heap.Frames heap' c n) : heap.networks.size ≤ heap'.networks.size :=
  not_lt.mp fun shrunk => lt_irrefl _ (frames.networks _ shrunk).1

/-- A later change of objects that were not there at first. -/
theorem trans {heap' heap'' : Heap} {c : Option ConceptRef} {n : Option NetworkRef}
    (first : heap.Frames heap' none none) (second : heap'.Frames heap'' c n)
    (concept : ∀ i < heap.concepts.size, some i ≠ c)
    (network : ∀ i < heap.networks.size, some i ≠ n) : heap.Frames heap'' none none where
  networks i below := by
    obtain ⟨below', same⟩ := first.networks i below
    obtain ⟨below'', same'⟩ := second.networks i below'
    exact ⟨below'', fun other => (same' (network i below)).trans (same other)⟩
  concepts i below := by
    obtain ⟨below', same⟩ := first.concepts i below
    obtain ⟨below'', same'⟩ := second.concepts i below'
    exact ⟨below'', fun other => (same' (concept i below)).trans (same other)⟩
  links i below := by
    obtain ⟨below', same⟩ := first.links i below
    obtain ⟨below'', same'⟩ := second.links i below'
    exact ⟨below'', same'.trans same⟩
  uris u text cached := second.uris u text (first.uris u text cached)

/-- Assigning to a URI object, when a text that has been made is kept. -/
theorem modifyURI (u : UriRef) {f : KnowledgeURI → KnowledgeURI}
    (keeps : ∀ text, (heap.uri u).cached = some text → (f (heap.uri u)).cached = some text) :
    heap.Frames (heap.modifyURI u f) none none where
  networks _ below := ⟨below, fun _ => rfl⟩
  concepts _ below := ⟨below, fun _ => rfl⟩
  links _ below := ⟨below, rfl⟩
  uris u' text cached := by
    by_cases here : u' = u
    · subst here
      rw [Heap.uri, Heap.modifyURI, Arena.get_modify_self]
      exact keeps text cached
    · rw [Heap.uri, Heap.modifyURI, Arena.get_modify_of_ne _ here]
      exact cached

end Heap.Frames

namespace World

/-- The second state has been reached from the first by loading. -/
structure Loads (s s' : World) : Prop where
  kb : s'.kb = s.kb
  heap : s.heap.Frames s'.heap none none
  kept : ∀ id r, s.id2object id = some r → s'.id2object id = some r
  new : ∀ id n, s'.id2object id = some (.network n) →
    s.id2object id = some (.network n) ∨ s.heap.networks.size ≤ n

/-- The second state has been reached from the first by loading, and by saving the given
network as a model, under a key. -/
structure Grows (key : String) (network : Option NetworkRef) (s s' : World) : Prop where
  nodes : s.kb.nodes <+: s'.kb.nodes
  relationships : ∀ rel ∈ s.kb.relationships, rel ∈ s'.kb.relationships
  models : ∀ rel ∈ s'.kb.relationships, rel.type = defaultLinkName →
    rel ∈ s.kb.relationships ∨
      rel.key = key ∧ ∃ n, some n = network ∧ s'.id2object rel.endNode = some (.network n)
  heap : s.heap.Frames s'.heap none none
  kept : ∀ id r, s.kb.HasNode id → s.id2object id = some r → s'.id2object id = some r
  new : ∀ id n, s'.id2object id = some (.network n) →
    s.id2object id = some (.network n) ∨ s.heap.networks.size ≤ n ∨ some n = network

theorem Loads.refl (s : World) : s.Loads s :=
  ⟨rfl, .refl _ none none, fun _ _ found => found, fun _ _ found => Or.inl found⟩

theorem Loads.trans {s t u : World} (first : s.Loads t) (second : t.Loads u) : s.Loads u where
  kb := second.kb.trans first.kb
  heap := first.heap.trans second.heap (fun _ _ h => nomatch h) (fun _ _ h => nomatch h)
  kept id r found := second.kept id r (first.kept id r found)
  new id n found := by
    rcases second.new id n found with old | fresh
    · exact first.new id n old
    · exact Or.inr (first.heap.size_networks_le.trans fresh)

/-- Another state of the heap, in which no object of the first state has been assigned to. -/
theorem Loads.withHeap {s t : World} (loads : s.Loads t) {heap : Heap} {c : Option ConceptRef}
    {n : Option NetworkRef} (frames : t.heap.Frames heap c n)
    (concept : ∀ i < s.heap.concepts.size, some i ≠ c)
    (network : ∀ i < s.heap.networks.size, some i ≠ n) : s.Loads { t with heap } where
  kb := loads.kb
  heap := loads.heap.trans frames concept network
  kept := loads.kept
  new := loads.new

/-- Nodes with an object have one that was there, or are new. -/
theorem Loads.grows {s t : World} (loads : s.Loads t) (key : String)
    (network : Option NetworkRef) : s.Grows key network t where
  nodes := loads.kb ▸ List.prefix_refl _
  relationships rel member := by rwa [loads.kb]
  models rel member _ := Or.inl (by rwa [loads.kb] at member)
  heap := loads.heap
  kept id r _ := loads.kept id r
  new id n found := (loads.new id n found).imp_right Or.inl

section Grows

variable {key : String} {network : Option NetworkRef} {s t u : World}

theorem Grows.refl (key : String) (network : Option NetworkRef) (s : World) :
    s.Grows key network s := (Loads.refl s).grows key network

theorem Grows.hasNode (grows : s.Grows key network t) {id : ℕ} (present : s.kb.HasNode id) :
    t.kb.HasNode id := (grows.nodes.map Node.id).subset present

theorem Grows.trans (first : s.Grows key network t) (second : t.Grows key network u) :
    s.Grows key network u where
  nodes := first.nodes.trans second.nodes
  relationships rel member := second.relationships rel (first.relationships rel member)
  models rel member type := by
    rcases second.models rel member type with old | new
    · rcases first.models rel old type with older | ⟨same, n, saved, found⟩
      · exact Or.inl older
      · exact Or.inr ⟨same, n, saved, second.kept _ _ (t.kb.joined rel old).2 found⟩
    · exact Or.inr new
  heap := first.heap.trans second.heap (fun _ _ h => nomatch h) (fun _ _ h => nomatch h)
  kept id r present found :=
    second.kept id r (first.hasNode present) (first.kept id r present found)
  new id n found := by
    rcases second.new id n found with old | fresh | saved
    · exact first.new id n old
    · exact Or.inr (Or.inl (first.heap.size_networks_le.trans fresh))
    · exact Or.inr (Or.inr saved)

instance : IsPreorder World (Grows key network) where
  refl := Grows.refl key network
  trans _ _ _ := Grows.trans

/-- A node that exists keeps its properties. -/
theorem Grows.node (grows : s.Grows key network t) {id : ℕ} (present : s.kb.HasNode id) :
    t.kb.node id = s.kb.node id := by
  obtain ⟨added, split⟩ := grows.nodes
  obtain ⟨node, member, same⟩ := List.mem_map.mp present
  have found : (s.kb.nodes.find? fun node => node.id = id).isSome :=
    List.find?_isSome.mpr ⟨node, member, decide_eq_true same⟩
  rw [KB.node, KB.node, ← split, List.find?_append, Option.or_of_isSome found]

end Grows

end World

variable {platform : Platform} {key : String} {network : Option NetworkRef}

/-! ### Saving -/

variable (platform) in
theorem loads_uriText (u : UriRef) (s : World) :
    s.Loads (finalState ((uriText platform u).run s)) := by
  unfold uriText
  simp only [EStateM.run_bind, EStateM.run_get]
  cases cached : (s.heap.uri u).cached with
  | some text => exact World.Loads.refl s
  | none =>
    dsimp only
    split_ifs
    · refine (World.Loads.refl s).withHeap (.modifyURI u fun text kept => ?_)
        (fun _ _ h => nomatch h) fun _ _ h => nomatch h
      rw [cached] at kept
      exact nomatch kept
    · exact World.Loads.refl s

theorem respects_uriText (u : UriRef) :
    Respects (World.Grows key network) (uriText platform u) :=
  fun s => (loads_uriText platform u s).grows key network

theorem respects_keyText (child : Child) :
    Respects (World.Grows key network) (child.keyText platform) := by
  unfold Child.keyText
  cases child.key with
  | resourceURI => exact respects_get.bind fun s => respects_uriText _
  | linkName text => exact respects_pure text

theorem respects_get (r : ResourceRef) : Respects (World.Grows key network) (KBMap.get r) := by
  refine Semantics.respects_get.bind fun s => ?_
  dsimp only
  split_ifs with none
  · exact respects_pure _
  · split
    · exact respects_pure _
    · exact respects_throw _

theorem respects_createLink (parent child : Option ℕ) {linkType linkKey : String}
    (inner : linkType ≠ defaultLinkName) :
    Respects (World.Grows key network) (N4JKB.createLink parent child linkType linkKey) := by
  intro s
  simp only [N4JKB.createLink, EStateM.run_bind, EStateM.run_get]
  cases s.kb.findNode parent with
  | none => exact World.Grows.refl key network s
  | some parentNode =>
    cases s.kb.findNode child with
    | none => exact World.Grows.refl key network s
    | some childNode =>
      refine ⟨List.prefix_refl _, fun rel member => List.mem_append_left _ member, ?_,
        .refl _ none none, fun _ _ _ found => found, fun _ _ found => Or.inl found⟩
      intro rel member type
      rcases List.mem_append.mp member with old | new
      · exact Or.inl old
      · rw [List.mem_singleton.mp new] at type
        exact absurd type inner

/-- A resource is stored. As a model it is stored under the key, and is the network. -/
theorem respects_saveResource (r : ResourceRef) (parent : Option ℕ) {linkType linkKey : String}
    (model : linkType = defaultLinkName → linkKey = key ∧ ∃ n, r = .network n)
    (saved : ∀ n, r = .network n → some n = network) :
    Respects (World.Grows key network) (N4JKB.saveResource r parent linkKey linkType) := by
  intro s
  constructor
  case nodes => exact List.prefix_append _ _
  case relationships => exact fun rel member => List.mem_append_left _ member
  case models =>
    intro rel member type
    rcases List.mem_append.mp member with old | new
    · exact Or.inl old
    · rw [List.mem_singleton.mp new] at type ⊢
      obtain ⟨same, n, rfl⟩ := model type
      exact Or.inr ⟨same, n, saved n rfl, Function.update_self ..⟩
  case heap => exact .modifyURI _ fun _ kept => kept
  case kept =>
    intro id r' present found
    have fresh : id ≠ s.kb.upcoming 0 := fun same => s.kb.upcoming_fresh 0 (same ▸ present)
    exact (Function.update_of_ne fresh _ _).trans found
  case new =>
    intro id n found
    change Function.update s.id2object (s.kb.upcoming 0) (some r) id = _ at found
    -- the number is fresh, so the entry of no other object is replaced
    by_cases here : id = s.kb.upcoming 0
    · rw [here, Function.update_self] at found
      exact Or.inr (Or.inr (saved n (Option.some.inj found)))
    · rw [Function.update_of_ne here] at found
      exact Or.inl found

theorem respects_modify_saved (f : List String → List String) :
    Respects (World.Grows key network)
      (modify fun s => { s with saved := f s.saved } : KBProgram PUnit) := by
  intro s
  have same := World.Grows.refl key network s
  exact ⟨same.nodes, same.relationships, same.models, same.heap, same.kept, same.new⟩

theorem respects_checkIfSaved (parent refObject : Option ℕ) {linkType linkKey : String}
    (uid : String) (inner : linkType ≠ defaultLinkName) :
    Respects (World.Grows key network) (checkIfSaved parent linkKey linkType refObject uid) := by
  unfold checkIfSaved
  split_ifs with none
  · exact respects_pure false
  · refine Semantics.respects_get.bind fun s => ?_
    split_ifs with known
    · exact (respects_createLink _ _ inner).bind fun _ => respects_pure true
    · exact (respects_modify_saved fun saved => saved ++ [uid]).bind fun _ => respects_pure false

theorem respects_appendToSave (r : ResourceRef) :
    Respects (World.Grows key network) (appendToSave r) := by
  refine Semantics.respects_get.bind fun s => ?_
  dsimp only
  split_ifs with none
  · exact (respects_throw _).bind fun _ => respects_modify_saved fun saved => saved ++ [s.heap.uid r]
  · exact respects_modify_saved fun saved => saved ++ [s.heap.uid r]

/-- What a resource is saved with is neither a model nor a network. -/
theorem Heap.linkType_of_mem_children {heap : Heap} {r : ResourceRef} {child : Child}
    (member : child ∈ heap.children r) :
    child.linkType ≠ defaultLinkName ∧ ∀ n, child.resource ≠ .network n := by
  cases r with
  | concept c =>
    simp only [Heap.children, Heap.conceptChildren, List.mem_append, List.mem_map,
      List.mem_flatMap, List.mem_cons, List.not_mem_nil, or_false] at member
    rcases member with ((⟨x, -, rfl⟩ | ⟨x, -, rfl⟩) | ⟨x, -, rfl⟩) | ⟨t, -, rfl | rfl⟩
    all_goals exact ⟨by dsimp only [Function.comp_apply, child]; decide, fun _ h => by cases h⟩
  | phrase p =>
    simp only [Heap.children, Heap.phraseChildren, List.mem_append, List.mem_map] at member
    rcases member with ⟨x, -, rfl⟩ | ⟨x, -, rfl⟩
    all_goals exact ⟨by dsimp only [Function.comp_apply, child]; decide, fun _ h => by cases h⟩
  | network n =>
    simp only [Heap.children, Heap.networkChildren, List.mem_append, List.mem_map] at member
    rcases member with (⟨x, -, rfl⟩ | ⟨x, -, rfl⟩) | ⟨x, -, rfl⟩
    all_goals exact ⟨by dsimp only [Function.comp_apply, child]; decide, fun _ h => by cases h⟩
  | link l => cases member

/-- What a resource is saved with is saved inside a model. -/
theorem respects_forM_saveChild {next : Saver} (r : ResourceRef) (heap : Heap)
    (inner : ∀ r' parent' linkKey' linkType', linkType' ≠ defaultLinkName →
      (∀ n, r' ≠ .network n) →
        Respects (World.Grows key network) (next r' parent' linkKey' linkType')) :
    Respects (World.Grows key network) (forM (heap.children r) (saveChild platform next r)) := by
  refine respects_forM _ fun child member => ?_
  obtain ⟨type, resource⟩ := Heap.linkType_of_mem_children member
  refine (respects_get r).bind fun parent => (respects_keyText child).bind fun text => ?_
  exact inner child.resource parent text child.linkType type resource

/-- What a `save` does after it has found that the resource is not in the list. -/
theorem respects_store {next : Saver} (r : ResourceRef) (parent : Option ℕ)
    {linkType linkKey : String}
    (model : linkType = defaultLinkName → linkKey = key ∧ ∃ n, r = .network n)
    (saved : ∀ n, r = .network n → some n = network)
    (inner : ∀ r' parent' linkKey' linkType', linkType' ≠ defaultLinkName →
      (∀ n, r' ≠ .network n) →
        Respects (World.Grows key network) (next r' parent' linkKey' linkType')) :
    Respects (World.Grows key network) (do
      N4JKB.saveResource r parent linkKey linkType
      appendToSave r
      forM ((← get).heap.children r) (saveChild platform next r)) := by
  refine (respects_saveResource r parent model saved).bind fun _ => ?_
  refine (respects_appendToSave r).bind fun _ => ?_
  -- the children are read once, and none of them is a model
  exact Semantics.respects_get.bind fun t => respects_forM_saveChild r t.heap inner

/-- A save inside a model. -/
theorem respects_save (stack : ℕ) (r : ResourceRef) (parent : Option ℕ)
    (linkKey linkType : String) (inner : linkType ≠ defaultLinkName)
    (resource : ∀ n, r ≠ .network n) :
    Respects (World.Grows key network) (save platform stack r parent linkKey linkType) := by
  have model : linkType = defaultLinkName → linkKey = key ∧ ∃ n, r = .network n :=
    fun same => absurd same inner
  have saved : ∀ n, r = .network n → some n = network := fun n same => absurd same (resource n)
  -- on the stack; below the root no relationship is of the type of models
  induction stack generalizing r parent linkType linkKey with
  | zero => exact respects_throw _
  | succ stack ih =>
    by_cases recursive : r.Recursive
    · rw [save_succ_of_recursive stack recursive]
      refine (respects_get r).bind fun refObject => ?_
      refine Semantics.respects_get.bind fun s => ?_
      refine (respects_checkIfSaved parent refObject _ inner).bind fun known => ?_
      cases known with
      | true => exact respects_pure _
      | false =>
        refine respects_store r parent model saved fun r' parent' linkKey' linkType' type none => ?_
        exact ih r' parent' linkKey' linkType' type none (fun same => absurd same type)
          fun n same => absurd same (none n)
    · cases r with
      | link l => exact respects_saveResource (.link l) parent model saved
      | concept c => exact absurd trivial recursive
      | phrase p => exact absurd trivial recursive
      | network n => exact absurd trivial recursive

theorem run_get_eq_ok {r : ResourceRef} {s t : World} {id : Option ℕ}
    (run : (KBMap.get r).run s = .ok id t) : t = s := by
  simp only [KBMap.get, EStateM.run_bind, EStateM.run_get] at run
  split_ifs at run
  · cases run
    rfl
  · split at run
    · cases run
      rfl
    · cases run

/-- A save of a network as a model: with an empty list, it is stored as a new node. -/
theorem respects_saveAnew (stack : ℕ) (n : NetworkRef) (parent : Option ℕ) (key : String) :
    Respects (World.Grows key (some n))
      (saveAnew platform stack (.network n) parent key defaultLinkName) := by
  intro s
  refine relates_bind (respects_modify_saved (fun _ => []) s) fun _ _ emptied => ?_
  cases emptied
  cases stack with
  | zero => exact respects_throw _ _
  | succ stack =>
    refine relates_bind (respects_get _ _) fun refObject m got => ?_
    rw [run_get_eq_ok got]
    refine relates_bind (Semantics.respects_get _) fun _ _ same => ?_
    cases same
    have unknown : ∀ uid : String, uid = "" ∨ uid ∉ ([] : List String) :=
      fun uid => Or.inr List.not_mem_nil
    refine relates_bind ?_ fun known t checked => ?_
    · rw [run_checkIfSaved_of_unsaved (unknown _)]
      exact respects_modify_saved (fun saved => saved ++ _) _
    · rw [run_checkIfSaved_of_unsaved (unknown _)] at checked
      cases checked
      refine respects_store (.network n) parent (fun _ => ⟨rfl, n, rfl⟩)
        (fun n' same => by rw [ResourceRef.network.inj same]) ?_ _
      exact fun r' parent' linkKey' linkType' => respects_save stack r' parent' linkKey' linkType'

/-! ### Loading -/

/-- Where objects have been made and registered, and none has been changed. -/
theorem World.Extended.loads {s t : World} (extended : s.Extended t) : s.Loads t where
  kb := extended.kb
  heap :=
    { networks := fun i below =>
        ⟨below.trans_le extended.networks.size, fun _ => extended.networks.get i below⟩
      concepts := fun i below =>
        ⟨below.trans_le extended.concepts.size, fun _ => extended.concepts.get i below⟩
      links := fun i below => ⟨below.trans_le extended.links.size, extended.links.get i below⟩
      uris := by
        intro u text cached
        -- an object that has a text is there
        have below : u < s.heap.uris.size := by
          by_contra beyond
          have missing := s.heap.uris.get_of_size_le u (not_lt.mp beyond)
          rw [Heap.uri, missing] at cached
          exact nomatch cached
        rwa [Heap.uri, extended.uris.get u below] }
  kept := extended.kept
  new id n found := extended.new id _ found

/-- A network that is loaded is the one the table has for the node, or a new one; and the table
has it then. -/
theorem run_loadNetwork_eq_ok {stack : ℕ} {parent : Option ℕ} {linkType : String} {s t : World}
    {n : NetworkRef}
    (run : (ConceptNetwork.load platform stack parent key linkType).run s = .ok n t) :
    ∃ selfMap, s.kb.loadChild platform parent key linkType = some selfMap ∧
      platform.acceptsURI (KnowledgeURI.ofMap platform selfMap).format ∧
      t.id2object selfMap.id = some (.network n) ∧
      (s.id2object selfMap.id = some (.network n) ∨ s.heap.networks.size ≤ n) := by
  obtain ⟨_, _, got, run⟩ := run_bind_eq_ok_iff.mp run
  cases got
  dsimp only at run
  split at run
  · exact nomatch run
  · rename_i selfMap found
    obtain ⟨cached, _, looked, run⟩ := run_bind_eq_ok_iff.mp run
    unfold KBMap.loadFromCache at looked
    dsimp only at looked
    split_ifs at looked with accepted
    · obtain ⟨_, _, got, same⟩ := run_bind_eq_ok_iff.mp looked
      cases got
      cases same
      refine ⟨selfMap, found, accepted, ?_⟩
      split at run
      · rename_i n' present
        cases run
        exact ⟨present, Or.inl present⟩
      · exact nomatch run
      · -- a network that is new is registered at once, and what follows keeps the entry
        obtain ⟨uri, _, made, run⟩ := run_bind_eq_ok_iff.mp run
        cases made
        obtain ⟨res, _, made, run⟩ := run_bind_eq_ok_iff.mp run
        cases made
        obtain ⟨_, m, registered, run⟩ := run_bind_eq_ok_iff.mp run
        cases registered
        obtain ⟨concepts, m₁, first, run⟩ := run_bind_eq_ok_iff.mp run
        obtain ⟨conceptLinkList, m₂, second, run⟩ := run_bind_eq_ok_iff.mp run
        obtain ⟨_, _, assigned, run⟩ := run_bind_eq_ok_iff.mp run
        cases assigned
        cases run
        have before := World.Extended.of_run (World.Extended.maintains_loadFrames
          (fun parent key linkType => World.Extended.maintains_orNull
            (World.Extended.maintains_loadConcept stack parent key linkType)) _ _) first
        have after := World.Extended.of_run (World.Extended.maintains_loadLinks _ _) second
        refine ⟨after.kept _ _ (before.kept _ _ (Function.update_self ..)), Or.inr le_rfl⟩
    · exact nomatch looked


end ThinkingUnderstanding
