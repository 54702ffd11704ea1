import ThinkingUnderstanding.Persistence.ConceptNetworks

/-!
# Are networks of concepts restored?

A link is read back as one between two copies of its node, and these copies are registered nowhere.
So no network with links is restored. Without links, and when what is stored can be read, the
network is restored in whatever order exactly when its nodes, and the generalisations
and specialisations of every concept, are told apart by their texts.

For the converse, the relationship that is mistaken for another one is enumerated first.

## Main results

* `links_eq_nil_of_roundTrips` — a network that is restored has no links
* `NetworkRestorable.roundTrips`, `NetworkRestorable.of_always` — the two directions
* `networkAlwaysRoundTrips_iff` — when a network is restored
-/

namespace ThinkingUnderstanding

open Math Semantics

namespace Concept.Complete

variable {platform : Platform} {w : World} {id : ℕ} {c : ConceptRef}
  (complete : Concept.Complete platform w id c)

include complete

theorem framed_generalisations : w.Framed platform id generalisationLinkName
    ((w.heap.generalisations c).values.map .concept) := by
  obtain ⟨l, line, -, framed⟩ := complete.generalisations
  rw [Heap.generalisations, line]
  exact framed

theorem framed_specialisations : w.Framed platform id specialisationLinkName
    ((w.heap.specialisations c).values.map .concept) := by
  obtain ⟨l, line, -, framed⟩ := complete.specialisations
  rw [Heap.specialisations, line]
  exact framed

/-- A concept has been made of one node only. -/
theorem id_eq {id' : ℕ} (complete' : Concept.Complete platform w id' c) : id = id' := by
  have uid := congrArg KnowledgeURI.uid (complete.uri.symm.trans complete'.uri)
  have same : (w.kb.node id).id = (w.kb.node id').id := toString_nat_injective uid
  rwa [w.kb.id_node, w.kb.id_node] at same

end Concept.Complete

/-! ### Links -/

/-- A network that is loaded gets the links that are read from the relationships of its node. -/
theorem exists_run_loadLinks_of_loadNetwork {platform : Platform} {w₀ w : World} {stack : ℕ}
    {parent : Option ℕ} {key linkType : String} {n : NetworkRef} (loaded : LoadedFrom platform w₀ w₀)
    (empty : ∀ id, w₀.id2object id = none)
    (run : (ConceptNetwork.load platform stack parent key linkType).run w₀ = .ok n w) :
    ∃ m m' id, LoadedFrom platform w₀ m ∧
      (loadLinks platform id linksLinkName).run m = .ok (w.heap.network n).links m' ∧
        w.heap.links = m'.heap.links := by
  obtain ⟨_, _, got, run⟩ := run_bind_eq_ok_iff.mp run
  cases got
  dsimp only at run
  cases found : w₀.kb.loadChild platform parent key linkType with
  | none =>
    rw [found] at run
    cases run
  | some selfMap =>
    rw [found] at run
    dsimp only at run
    obtain ⟨cached, m₁, looked, run⟩ := run_bind_eq_ok_iff.mp run
    unfold KBMap.loadFromCache at looked
    dsimp only at looked
    split_ifs at looked
    case neg => cases looked
    obtain ⟨_, _, got, same⟩ := run_bind_eq_ok_iff.mp looked
    cases got
    cases same
    rw [empty] at run
    dsimp only at run
    -- from here on the network is new, and registered
    obtain ⟨uri, m₁, made, run⟩ := run_bind_eq_ok_iff.mp run
    have loaded₁ := (LoadedFrom.maintains_createURI _).keeps_of_run made loaded
    obtain ⟨res, m₂, made, run⟩ := run_bind_eq_ok_iff.mp run
    have loaded₂ := (LoadedFrom.maintains_createNetwork _).keeps_of_run made loaded₁
    obtain ⟨_, m₃, registered, run⟩ := run_bind_eq_ok_iff.mp run
    have loaded₃ := (LoadedFrom.maintains_register (fun _ => ResourceRef.noConfusion) _).keeps_of_run
      registered loaded₂
    obtain ⟨concepts, m₄, frames, run⟩ := run_bind_eq_ok_iff.mp run
    have loaded₄ := (LoadedFrom.maintains_loadFrames (fun parent key linkType =>
      LoadedFrom.maintains_orNull (LoadedFrom.maintains_loadConcept stack parent key linkType))
        _ _).keeps_of_run frames loaded₃
    obtain ⟨links, m₅, read, run⟩ := run_bind_eq_ok_iff.mp run
    obtain ⟨_, _, assigned, run⟩ := run_bind_eq_ok_iff.mp run
    cases assigned
    cases run
    have given := Arena.get_modify_self m₅.heap.networks n fun network => { network with
      nodes := concepts.values
      links := links }
    refine ⟨m₄, m₅, selfMap.id, loaded₄, ?_, rfl⟩
    rw [Heap.network, given]
    exact read

theorem links_eq_nil_of_roundTrips {platform : Platform} {stack : ℕ} {s : World} {n : NetworkRef}
    {parent : Option ℕ} {key linkType : String}
    (trips : NetworkRoundTrips platform stack s n parent key linkType) :
    (s.heap.network n).links = [] := by
  obtain ⟨t, -, loads⟩ := trips
  have fresh : FreshProcess t { t with id2object := fun _ => none } := ⟨rfl, fun _ => rfl⟩
  obtain ⟨n', w, loaded, restored⟩ := loads _ fresh
  have start : LoadedFrom platform _ _ := .of_freshProcess fresh
  have final := (LoadedFrom.maintains_loadNetwork stack parent key linkType).keeps_of_run loaded start
  obtain ⟨m, m', id, kept, read, same⟩ := exists_run_loadLinks_of_loadNetwork start fresh.empty loaded
  rw [List.eq_nil_iff_forall_not_mem]
  intro l member
  obtain ⟨l', inside, counterpart⟩ := Multiset.exists_mem_of_rel_of_mem restored.links member
  -- the link that is to be the counterpart is new, and its source is a copy
  obtain ⟨id, -, -, -, registered⟩ := counterpart.source
  obtain ⟨new, below⟩ := (kept.run_loadLinks _ linksLinkName).2 _ _ read l' inside
  exact (final.detached l' new (same ▸ below) _ (Or.inl rfl)).2 id registered

/-! ### Frames -/

/-- The objects that have been registered for the children of a node. -/
theorem SavePlan.Stored.forall₂_of_framed {platform : Platform} {plan : SavePlan} {startNode : ℕ}
    {root : Child} {r : ResourceRef} {type : String} {cs cs' : List ConceptRef} {w : World}
    (stored : plan.Stored startNode root w.kb) (member : r ∈ plan.resources)
    (group : (plan.heap.children r).filter (fun child => child.linkType = type) =
      (cs.map .concept).map (Heap.child type))
    (clear : plan.Unambiguous startNode root r type (cs.map .concept))
    (closed : DepthFirst.Closed plan.heap.children Child.resource plan.resources)
    (framed : w.Framed platform (plan.nodeOf r) type (cs'.map .concept)) :
    ∃ ds : List ConceptRef, ds.Perm cs ∧ List.Forall₂ (fun c c' =>
      w.id2object (plan.nodeOf (.concept c)) = some (.concept c')) ds cs' := by
  obtain ⟨rs, perm, keys⟩ := stored.childKeys_below platform member group clear.single clear.texts
  obtain ⟨ds, perm', rfl⟩ := exists_perm_of_perm_map perm
  rw [World.Framed, keys, List.forall₂_map_left_iff, List.forall₂_map_left_iff,
    List.forall₂_map_right_iff] at framed
  refine ⟨ds, perm', ?_⟩
  have inside : ∀ c ∈ ds, c ∈ cs := fun c => perm'.mem_iff.mp
  refine ((List.forall₂_and_left _ _).mpr ⟨inside, framed⟩).imp ?_
  rintro c c' ⟨among, map, found, registered⟩
  rw [stored.loadChild_below member group clear closed (List.mem_map_of_mem among)] at found
  cases found
  exact registered

section Loaded

variable {platform : Platform} {stack : ℕ} {s t w : World} {n n' : NetworkRef} {parent : Option ℕ}
  {key linkType : String} {objects : List ResourceRef}
  (storable : NetworkStorable platform stack s n key linkType)
  (savable : NetworkSavable stack s n objects) (unlinked : (s.heap.network n).links = [])
  (followed : (s.networkPlan stack n key linkType).Followed platform
    (s.networkPlan stack n key linkType).arrivals t)
  (stored : (s.networkPlan stack n key linkType).Stored (s.kb.getNodeById parent)
    (rootCall (.network n) key linkType) t.kb)
  (loaded : NetworkLoaded platform t w ((s.networkPlan stack n key linkType).nodeOf (.network n)) n')

namespace NetworkLoaded

include storable savable unlinked followed stored

/-- A concept is reloaded as the one that is registered for its node. -/
theorem reloaded_iff {c c' : ConceptRef} (read : s.heap.ReadWith n (.concept c)) :
    Reloaded s t w c c' ↔
      w.id2object ((s.networkPlan stack n key linkType).nodeOf (.concept c)) = some (.concept c') := by
  have member := storable.mem_resources savable unlinked read
  have named := followed.numbered _ member
  constructor
  · rintro ⟨id, uid, -, -, registered⟩
    obtain rfl := toString_nat_injective (named.symm.trans uid)
    exact registered
  · intro registered
    exact ⟨_, named, stored.hasNode member, SavePlan.not_hasNode_nodeOf _ _, registered⟩

section Frames

variable {r : ResourceRef} {type : String} {cs cs' : List ConceptRef}
  (read : s.heap.ReadWith n r) (reads : ∀ c ∈ cs, s.heap.ReadWith n (.concept c))
  (group : (s.heap.children r).filter (fun child => child.linkType = type) =
    (cs.map .concept).map (Heap.child type))
  (framed : w.Framed platform ((s.networkPlan stack n key linkType).nodeOf r) type
    (cs'.map .concept))

include loaded read group framed

section Clear

variable (clear : s.ToldApart stack n parent key linkType r type (cs.map .concept))

include clear

omit followed in
theorem exists_registered_of_framed {c : ConceptRef} (inside : c ∈ cs) :
    ∃ c', w.id2object ((s.networkPlan stack n key linkType).nodeOf (.concept c)) =
      some (.concept c') := by
  rw [← loaded.kb] at stored
  obtain ⟨ds, perm, related⟩ := stored.forall₂_of_framed
    (storable.mem_resources savable unlinked read) group clear
    (storable.sound savable unlinked).closed framed
  obtain ⟨c', -, registered⟩ := exists_of_mem_left related (perm.mem_iff.mpr inside)
  exact ⟨c', registered⟩

include reads

/-- The frames that are loaded are those that were saved. -/
theorem rel_of_framed : Multiset.Rel (Reloaded s t w) cs cs' := by
  have stored' := stored
  rw [← loaded.kb] at stored'
  obtain ⟨ds, perm, related⟩ := stored'.forall₂_of_framed
    (storable.mem_resources savable unlinked read) group clear
    (storable.sound savable unlinked).closed framed
  rw [← Multiset.coe_eq_coe.mpr perm]
  have readAll : ∀ c ∈ ds, s.heap.ReadWith n (.concept c) := fun c inside =>
    reads c (perm.mem_iff.mp inside)
  refine multisetRel_of_forall₂
    (((List.forall₂_and_left _ _).mpr ⟨readAll, related⟩).imp fun c c' both => ?_)
  exact (reloaded_iff storable savable unlinked followed stored both.1).mpr both.2

end Clear

omit followed in
/-- When the frames that are loaded are as many as those that were saved, these have texts of their
own. -/
theorem apart_of_rel (rel : Multiset.Rel (Reloaded s t w) cs cs') :
    r ∉ cs.map ResourceRef.concept ∧
      ((cs.map .concept).map (s.networkPlan stack n key linkType).textOf).Nodup := by
  have stored' := stored
  rw [← loaded.kb] at stored'
  have keys := framed.length_eq
  have length : cs.length = cs'.length := Multiset.card_eq_card_of_rel rel
  refine stored'.apart_of_length_le platform (storable.mem_resources savable unlinked read) group ?_
  rw [List.length_map] at keys ⊢
  omega

include reads

/-- A key under which the resource itself is found, is not that of a frame. -/
theorem own_of_rel (rel : Multiset.Rel (Reloaded s t w) cs cs') {edge : Relationship}
    (planned : edge ∈ (s.networkPlan stack n key linkType).planned (s.kb.getNodeById parent)
      (rootCall (.network n) key linkType)) (typed : edge.type = type)
    (ends : edge.endNode = (s.networkPlan stack n key linkType).nodeOf r)
    (favoured : platform.order = (Platform.favouring fun other => other = edge).order)
    {c : ConceptRef} (inside : c ∈ cs) :
    edge.key ≠ (s.networkPlan stack n key linkType).textOf (.concept c) := by
  intro same
  have member := storable.mem_resources savable unlinked read
  obtain ⟨single, texts⟩ :=
    apart_of_rel storable savable unlinked stored loaded read group framed rel
  have stored' := stored
  rw [← loaded.kb] at stored'
  -- by the key, the node itself is found, so its object is among the frames
  obtain ⟨rs, perm, keys⟩ := stored'.childKeys_below platform member group single texts
  have listed : edge.key ∈ w.kb.childKeys platform
      (some ((s.networkPlan stack n key linkType).nodeOf r)) type := by
    rw [keys, same]
    exact List.mem_map_of_mem (perm.mem_iff.mpr (List.mem_map_of_mem inside))
  obtain ⟨_, frame, map, found, registered⟩ := exists_of_mem_left framed listed
  obtain ⟨c', among, rfl⟩ := List.mem_map.mp frame
  rw [stored'.loadChild_self member planned typed ends favoured] at found
  cases found
  -- a concept that was saved is reloaded as this object, so it is the resource itself
  obtain ⟨d, below, reloaded⟩ :=
    Multiset.exists_mem_of_rel_of_mem (Multiset.rel_flip.mpr rel) among
  have registered' := (reloaded_iff storable savable unlinked followed stored (reads d below)).mp
    reloaded
  have here := (loaded.complete _ c' registered).id_eq (loaded.complete _ c' registered')
  obtain rfl := storable.eq_of_nodeOf savable unlinked read here
  exact single (List.mem_map_of_mem below)

end Frames

/-! ### What is restored -/

omit followed in
include loaded in
/-- A network that is stored without links is loaded without links. -/
theorem links_eq_nil : (w.heap.network n').links = [] := by
  obtain ⟨m, m', same, run⟩ := loaded.network.links
  have member := storable.mem_resources savable unlinked .refl
  rw [← loaded.kb, ← same] at stored
  have nothing : ∀ rel ∈ m.kb.relationships,
      rel.startNode = (s.networkPlan stack n key linkType).nodeOf (.network n) →
        rel.type ≠ linksLinkName := by
    intro rel present starts typed
    have listed := KB.mem_relationshipsOf.mpr ⟨present, Or.inl starts, typed⟩
    obtain ⟨planned, -, -⟩ := (stored.mem_relationshipsOf (.network n)).mp listed
    obtain ⟨child, edge, rfl⟩ := stored.child_of_planned member planned starts
    have among : child ∈ (s.heap.children (.network n)).filter
        fun child => child.linkType = linksLinkName :=
      List.mem_filter.mpr ⟨edge, decide_eq_true typed⟩
    rw [Heap.filter_children_links, unlinked] at among
    exact absurd among List.not_mem_nil
  have read : (loadLinks platform _ _).run m = _ :=
    run_loadLinks_of_none (stored.hasNode member) nothing
  rw [run] at read
  exact (EStateM.Result.ok.inj read).1

variable (restorable : NetworkRestorable stack s n parent key linkType)

include restorable loaded

omit unlinked followed in
/-- Every concept that is read with the network is registered. -/
theorem exists_registered {r : ResourceRef} (read : s.heap.ReadWith n r) {c : ConceptRef}
    (concept : r = .concept c) :
    ∃ c', w.id2object ((s.networkPlan stack n key linkType).nodeOf (.concept c)) =
      some (.concept c') := by
  have unlinked := restorable.unlinked
  induction read generalizing c with
  | refl => cases concept
  | tail read member ih =>
    subst concept
    rcases Heap.mem_readChildren_concept member with ⟨m, rfl, inside⟩ | ⟨d, rfl, inside⟩
    · obtain rfl := Heap.ReadWith.network_eq read
      exact exists_registered_of_framed storable savable unlinked stored loaded .refl
        (Heap.filter_children_nodes m) loaded.network.nodes restorable.nodes inside
    · -- the concept from which this one is read has been registered, and so it is complete
      obtain ⟨d', registered⟩ := ih rfl
      have complete := loaded.complete _ d' registered
      rcases inside with inside | inside
      · exact exists_registered_of_framed storable savable unlinked stored loaded read
          (Heap.filter_children_generalisations d) complete.framed_generalisations
          (restorable.generalisations d read) inside
      · exact exists_registered_of_framed storable savable unlinked stored loaded read
          (Heap.filter_children_specialisations d) complete.framed_specialisations
          (restorable.specialisations d read) inside

omit unlinked in
/-- A concept that is registered is restored. -/
theorem conceptRestored {c c' : ConceptRef} (read : s.heap.ReadWith n (.concept c))
    (registered : w.id2object ((s.networkPlan stack n key linkType).nodeOf (.concept c)) =
      some (.concept c')) : ConceptRestored s t w c c' := by
  have unlinked := restorable.unlinked
  -- what is registered has been made of the node, and the node of what was exported
  have made := loaded.complete _ c' registered
  have node := stored.node (storable.mem_resources savable unlinked read)
  rw [← loaded.kb] at node
  constructor
  case reloaded =>
    exact (reloaded_iff storable savable unlinked followed stored read).mpr registered
  case name =>
    rw [made.uri, node]
    rfl
  case content =>
    rw [made.content, node]
    change (⟨(s.heap.concept c).content.name, (s.heap.concept c).content.name⟩ : KnowledgeString) =
      ⟨(s.heap.concept c).content.value, (s.heap.concept c).content.name⟩
    rw [restorable.contents c read]
  case probability =>
    rw [made.probability, node]
    rfl
  case generalisations =>
    exact rel_of_framed storable savable unlinked followed stored loaded read
      (fun d inside => read.tail (List.mem_append_left _ (List.mem_append_left _
        (List.mem_map_of_mem inside))))
      (Heap.filter_children_generalisations c) made.framed_generalisations
      (restorable.generalisations c read)
  case specialisations =>
    exact rel_of_framed storable savable unlinked followed stored loaded read
      (fun d inside => read.tail (List.mem_append_left _ (List.mem_append_right _
        (List.mem_map_of_mem inside))))
      (Heap.filter_children_specialisations c) made.framed_specialisations
      (restorable.specialisations c read)

omit unlinked in
theorem networkRestored : NetworkRestored s t w n n' := by
  have unlinked := restorable.unlinked
  constructor
  case nodes =>
    exact rel_of_framed storable savable unlinked followed stored loaded .refl
      (fun c inside => .single (List.mem_map_of_mem inside)) (Heap.filter_children_nodes n)
      loaded.network.nodes restorable.nodes
  case concepts =>
    intro c read
    obtain ⟨c', registered⟩ := exists_registered storable savable stored loaded restorable read rfl
    exact ⟨c', conceptRestored storable savable followed stored loaded restorable read registered⟩
  case links =>
    rw [unlinked, links_eq_nil storable savable unlinked stored loaded]
    exact .zero

end NetworkLoaded

include savable in
/-- Where the condition holds, the network is restored in a given order of relationships. -/
theorem NetworkRestorable.roundTrips
    (writable : NetworkWritable platform stack s n parent key linkType)
    (restorable : NetworkRestorable stack s n parent key linkType) :
    NetworkRoundTrips platform stack s n parent key linkType := by
  have unlinked := restorable.unlinked
  obtain ⟨t, run, followed, stored⟩ := writable.exists_run savable unlinked
  refine ⟨t, run, fun w₀ fresh => ?_⟩
  have stored' := stored
  rw [← fresh.kb] at stored'
  obtain ⟨n', w, load⟩ := restorable.exists_run_load savable writable stored' rfl fresh.empty
  have load' := load
  rw [run_loadNetwork stack (writable.loadChild_network savable stored' unlinked)] at load'
  have loaded := writable.loaded_of_run savable unlinked stored fresh load'
  exact ⟨n', w, load,
    loaded.networkRestored writable.toNetworkStorable savable followed stored restorable⟩

end Loaded

/-! ### The converse -/

section Converse

variable {platform : Platform} {stack : ℕ} {s : World} {n : NetworkRef} {parent : Option ℕ}
  {key linkType : String} {objects : List ResourceRef}
  (writable : NetworkWritable platform stack s n parent key linkType)
  (savable : NetworkSavable stack s n objects) (unlinked : (s.heap.network n).links = [])

/-- A network that is restored, in the states after saving and loading it. -/
structure NetworkKept (platform : Platform) (stack : ℕ) (s : World) (n : NetworkRef)
    (parent : Option ℕ) (key linkType : String) (t w : World) (n' : NetworkRef) : Prop where
  followed : (s.networkPlan stack n key linkType).Followed platform
    (s.networkPlan stack n key linkType).arrivals t
  stored : (s.networkPlan stack n key linkType).Stored (s.kb.getNodeById parent)
    (rootCall (.network n) key linkType) t.kb
  loaded : NetworkLoaded platform t w ((s.networkPlan stack n key linkType).nodeOf (.network n)) n'
  restored : NetworkRestored s t w n n'

include writable savable unlinked

theorem NetworkRoundTrips.exists_kept (trips : NetworkRoundTrips platform stack s n parent key linkType) :
    ∃ t w n', NetworkKept platform stack s n parent key linkType t w n' := by
  obtain ⟨t, run, loads⟩ := trips
  obtain ⟨_, run', followed, stored⟩ := writable.exists_run savable unlinked
  cases run'.symm.trans run
  have fresh : FreshProcess t { t with id2object := fun _ => none } := ⟨rfl, fun _ => rfl⟩
  obtain ⟨n', w, load, restored⟩ := loads _ fresh
  have found := writable.loadChild_network savable stored unlinked
  rw [← fresh.kb] at found
  rw [run_loadNetwork stack found] at load
  exact ⟨t, w, n', followed, stored, writable.loaded_of_run savable unlinked stored fresh load,
    restored⟩

/-- The children of a type are told apart, when in whatever order those that are loaded are those
that were saved. -/
theorem toldApart_of_kept {r : ResourceRef} {type : String} {cs : List ConceptRef}
    (read : s.heap.ReadWith n r) (reads : ∀ c ∈ cs, s.heap.ReadWith n (.concept c))
    (group : (s.heap.children r).filter (fun child => child.linkType = type) =
      (cs.map .concept).map (Heap.child type))
    (kept : ∀ order order_perm, ∃ t w n' cs',
      NetworkKept (platform.withOrder order order_perm) stack s n parent key linkType t w n' ∧
      w.Framed (platform.withOrder order order_perm)
        ((s.networkPlan stack n key linkType).nodeOf r) type (List.map .concept cs') ∧
      Multiset.Rel (Reloaded s t w) cs cs') :
    s.ToldApart stack n parent key linkType r type (cs.map .concept) := by
  obtain ⟨t, w, n', cs', kept₀, framed, rel⟩ := kept platform.order platform.order_perm
  obtain ⟨single, texts⟩ := NetworkLoaded.apart_of_rel writable.toNetworkStorable savable unlinked
    kept₀.stored kept₀.loaded read group framed rel
  refine ⟨texts, single, ?_⟩
  intro r' below edge planned typed ends
  obtain ⟨c, inside, rfl⟩ := List.mem_map.mp below
  -- let the relationship to the resource itself be enumerated first
  obtain ⟨t, w, n', cs', kept₁, framed, rel⟩ :=
    kept _ (Platform.favouring fun other => other = edge).order_perm
  have writable' : NetworkWritable (platform.withOrder _
      (Platform.favouring fun other => other = edge).order_perm) stack s n parent key linkType :=
    { writable with }
  exact NetworkLoaded.own_of_rel writable'.toNetworkStorable savable unlinked kept₁.followed
    kept₁.stored kept₁.loaded read reads group framed rel planned typed ends rfl inside

omit unlinked in
/-- Where the network is restored in whatever order, the condition holds. -/
theorem NetworkRestorable.of_always
    (always : NetworkAlwaysRoundTrips platform stack s n parent key linkType) :
    NetworkRestorable stack s n parent key linkType := by
  have unlinked := links_eq_nil_of_roundTrips (always platform.order platform.order_perm)
  have kept : ∀ order order_perm, ∃ t w n',
      NetworkKept (platform.withOrder order order_perm) stack s n parent key linkType t w n' :=
    fun order order_perm => (always order order_perm).exists_kept { writable with } savable unlinked
  -- a concept, as it is restored
  have restores : ∀ {order order_perm t w n' c},
      NetworkKept (platform.withOrder order order_perm) stack s n parent key linkType t w n' →
        s.heap.ReadWith n (.concept c) → ∃ c', ConceptRestored s t w c c' ∧ Concept.Complete
          (platform.withOrder order order_perm) w
            ((s.networkPlan stack n key linkType).nodeOf (.concept c)) c' := by
    intro order order_perm t w n' c kept read
    have writable' : NetworkWritable (platform.withOrder order order_perm) stack s n parent key
        linkType :=
      { writable with }
    obtain ⟨c', restored⟩ := kept.restored.concepts c read
    exact ⟨c', restored, kept.loaded.complete _ c' ((NetworkLoaded.reloaded_iff
      writable'.toNetworkStorable savable unlinked kept.followed kept.stored read).mp
        restored.reloaded)⟩
  refine ⟨unlinked, fun c read => ?_, ?_, fun c read => ?_, fun c read => ?_⟩
  · obtain ⟨t, w, n', kept⟩ := kept platform.order platform.order_perm
    obtain ⟨c', restored, complete⟩ := restores kept read
    have node := kept.stored.node (writable.mem_resources savable unlinked read)
    rw [← kept.loaded.kb] at node
    have content := restored.content.symm.trans complete.content
    rw [node] at content
    rw [content]
    rfl
  · refine toldApart_of_kept writable savable unlinked .refl
      (fun c inside => .single (List.mem_map_of_mem inside)) (Heap.filter_children_nodes n)
      fun order order_perm => ?_
    obtain ⟨t, w, n', kept⟩ := kept order order_perm
    exact ⟨t, w, n', _, kept, kept.loaded.network.nodes, kept.restored.nodes⟩
  · refine toldApart_of_kept writable savable unlinked read
      (fun d inside => read.tail (List.mem_append_left _ (List.mem_append_left _
        (List.mem_map_of_mem inside))))
      (Heap.filter_children_generalisations c) fun order order_perm => ?_
    obtain ⟨t, w, n', kept⟩ := kept order order_perm
    obtain ⟨c', restored, complete⟩ := restores kept read
    exact ⟨t, w, n', _, kept, complete.framed_generalisations, restored.generalisations⟩
  · refine toldApart_of_kept writable savable unlinked read
      (fun d inside => read.tail (List.mem_append_left _ (List.mem_append_right _
        (List.mem_map_of_mem inside))))
      (Heap.filter_children_specialisations c) fun order order_perm => ?_
    obtain ⟨t, w, n', kept⟩ := kept order order_perm
    obtain ⟨c', restored, complete⟩ := restores kept read
    exact ⟨t, w, n', _, kept, complete.framed_specialisations, restored.specialisations⟩

end Converse

/-- A network that is restored by saving and loading it has no links. When there is a place for it,
and what is saved with it can be told apart and read, it is restored, in whatever order the store
returns relationships, exactly when the condition holds: for every platform, every state, every
network of finitely many objects and every place in the knowledge base. -/
theorem networkAlwaysRoundTrips_iff (platform : Platform) (stack : ℕ) (s : World) (n : NetworkRef)
    (parent : Option ℕ) (key linkType : String) (objects : List ResourceRef)
    (savable : NetworkSavable stack s n objects) :
    (NetworkAlwaysRoundTrips platform stack s n parent key linkType →
      (s.heap.network n).links = []) ∧
    (NetworkWritable platform stack s n parent key linkType →
      (NetworkAlwaysRoundTrips platform stack s n parent key linkType ↔
        NetworkRestorable stack s n parent key linkType)) := by
  refine ⟨fun always => links_eq_nil_of_roundTrips (always platform.order platform.order_perm),
    fun writable => ⟨fun always => .of_always writable savable always, ?_⟩⟩
  intro restorable order order_perm
  have writable' : NetworkWritable (platform.withOrder order order_perm) stack s n parent key
      linkType :=
    { writable with }
  exact restorable.roundTrips savable writable'

/-! ### Two animals, and a link between them -/

/-- What is read with a network is among objects that are closed. -/
theorem Heap.ReadWith.mem {heap : Heap} {n : NetworkRef} {objects : List ResourceRef}
    (member : .network n ∈ objects)
    (closed : ∀ r ∈ objects, ∀ r' ∈ heap.readChildren r, r' ∈ objects) {r : ResourceRef}
    (read : heap.ReadWith n r) : r ∈ objects := by
  induction read with
  | refl => exact member
  | tail _ child ih => exact closed _ ih _ child

/-- A network of a cat and an animal, which refer to each other. -/
def animals : World where
  heap :=
    { uris := .ofList [{ name := "pets" }, { name := "cat" }, { name := "animal" }]
      conceptLines := .ofList [{ frames := .ofList [(2, 1)] }, { frames := .ofList [(1, 0)] }]
      concepts := .ofList
        [{ generalisations := some 0, content := ⟨"cat", "cat"⟩, uri := 1 },
          { specialisations := some 1, content := ⟨"animal", "animal"⟩, uri := 2 }]
      networks := .ofList [{ nodes := [0, 1], uri := 0 }] }
  kb := .onlyRoot
  id2object _ := none

/-- The network, with a link from the cat to the animal. -/
def linkedAnimals : World :=
  { animals with
    heap := { animals.heap with
      uris := .ofList [{ name := "pets" }, { name := "cat" }, { name := "animal" }, { name := "is" }]
      links := .ofList [{ source := 0, destination := 1, uri := 3 }]
      networks := .ofList [{ nodes := [0, 1], links := [0], uri := 0 }] } }

theorem animals_savable :
    NetworkSavable 4 animals 0 [.network 0, .concept 0, .concept 1] where
  closed := by
    unfold DepthFirst.Closed
    decide +kernel
  member := List.mem_cons_self
  deep := by decide

theorem animals_read {r : ResourceRef} (read : animals.heap.ReadWith 0 r) :
    r ∈ [ResourceRef.network 0, .concept 0, .concept 1] :=
  read.mem List.mem_cons_self (by decide +kernel)

theorem animals_writable :
    NetworkWritable .plain 4 animals 0 (some KB.rootId) "pets" defaultLinkName where
  present id same := by
    cases same
    exact List.mem_singleton.mpr rfl
  new := by decide +kernel
  valid r member := by
    have all : ∀ r ∈ (animals.networkPlan 4 0 "pets" defaultLinkName).resources,
        animals.heap.uid r = "" := by decide +kernel
    exact Or.inl (all r member)
  apart := by
    unfold SavePlan.AllApart SavePlan.Apart
    decide +kernel
  pass _ _ _ _ _ _ := rfl
  accepted _ _ := rfl
  keysRead r read _ child edge _ _ := by
    have all : ∀ r ∈ [ResourceRef.network 0, .concept 0, .concept 1],
        ∀ child ∈ animals.heap.children r, (KnowledgeURI.ofRaw
          ((animals.networkPlan 4 0 "pets" defaultLinkName).relationship 0 child).key).isSome := by
      decide +kernel
    exact all r (animals_read read) child edge

/-- The network of the cat and the animal is restored. -/
theorem animals_restored :
    NetworkAlwaysRoundTrips .plain 4 animals 0 (some KB.rootId) "pets" defaultLinkName := by
  refine ((networkAlwaysRoundTrips_iff .plain 4 animals 0 (some KB.rootId) "pets" defaultLinkName _
    animals_savable).2 animals_writable).mpr ?_
  have concepts : ∀ c, animals.heap.ReadWith 0 (.concept c) → c = 0 ∨ c = 1 := by
    intro c read
    simpa using animals_read read
  refine ⟨rfl, fun c read => ?_, ⟨?_, ?_, ?_⟩, fun c read => ?_, fun c read => ?_⟩
  · rcases concepts c read with rfl | rfl <;> rfl
  · decide +kernel
  · decide +kernel
  · decide +kernel
  · rcases concepts c read with rfl | rfl
    all_goals refine ⟨?_, ?_, ?_⟩ <;> decide +kernel
  · rcases concepts c read with rfl | rfl
    all_goals refine ⟨?_, ?_, ?_⟩ <;> decide +kernel

/-- With the link, it is not. -/
theorem linkedAnimals_not_restored :
    ¬ NetworkAlwaysRoundTrips .plain 6 linkedAnimals 0 (some KB.rootId) "pets" defaultLinkName := by
  intro always
  have unlinked := links_eq_nil_of_roundTrips (always _ Platform.plain.order_perm)
  have linked : (linkedAnimals.heap.network 0).links = [0] := by decide +kernel
  rw [linked] at unlinked
  exact nomatch unlinked

end ThinkingUnderstanding
