import ThinkingUnderstanding.Persistence.ConceptLoads

/-!
# Which graphs of concepts can be loaded

A load returns when every node that it comes to can be made an object: the texts that are made of
the nodes are accepted, the keys of the children can be read as URIs, and a node is found as a
concept, or as a phrase, wherever it is found. The stack has to be deeper than the number of nodes,
since a node that has been loaded is not loaded again.

## Main definitions

* `KB.Loadable` — nodes from which concepts and phrases can be made
* `World.Sorted` — the nodes that have been loaded have objects of their class
* `Succeeds` — loads from these nodes return

## Main results

* `succeeds_loadPhrase`, `succeeds_loadConcept` — on a stack that is deep enough, they do
* `KB.Loadable.exists_run_loadAt` — a network can be loaded from its node
-/

namespace ThinkingUnderstanding

open Math Semantics

/-- By the keys of the children, nodes with the property are found. -/
def KB.LeadsTo (platform : Platform) (kb : KB) (property : ℕ → Prop) (id : ℕ) (linkType : String) :
    Prop :=
  ∀ key ∈ kb.childKeys platform (some id) linkType,
    ∃ map, kb.loadChild platform (some id) key linkType = some map ∧ property map.id

/-- The keys of the children can be read as URIs. -/
def KB.KeysRead (platform : Platform) (kb : KB) (id : ℕ) (linkType : String) : Prop :=
  ∀ key ∈ kb.childKeys platform (some id) linkType, (KnowledgeURI.ofRaw key).isSome

/-- The text that is made of a node is accepted. -/
def KB.AcceptedAt (platform : Platform) (kb : KB) (id : ℕ) : Prop :=
  platform.acceptsURI (KnowledgeURI.ofMap platform (kb.node id)).format

/-- Nodes from which concepts and phrases can be made. -/
structure KB.Loadable (platform : Platform) (kb : KB) (concepts phrases : ℕ → Prop) : Prop where
  apart : ∀ id, concepts id → ¬ phrases id
  conceptAccepted : ∀ id, concepts id → kb.AcceptedAt platform id
  phraseAccepted : ∀ id, phrases id → kb.AcceptedAt platform id
  generalisations : ∀ id, concepts id → kb.KeysRead platform id generalisationLinkName ∧
    kb.LeadsTo platform concepts id generalisationLinkName
  specialisations : ∀ id, concepts id → kb.KeysRead platform id specialisationLinkName ∧
    kb.LeadsTo platform concepts id specialisationLinkName
  phraseFrames : ∀ id, concepts id → kb.KeysRead platform id phrasesLinkName ∧
    kb.LeadsTo platform phrases id phrasesLinkName
  links : ∀ id, concepts id → kb.KeysRead platform id conceptLinkSourceName
  subPhrases : ∀ id, phrases id → kb.LeadsTo platform phrases id phrasesLinkName

/-- The nodes that have been loaded have objects of their class. -/
structure World.Sorted (concepts phrases : ℕ → Prop) (w : World) : Prop where
  concept : ∀ id, concepts id → ∀ r, w.id2object id = some r → ∃ c, r = .concept c
  phrase : ∀ id, phrases id → ∀ r, w.id2object id = some r → ∃ p, r = .phrase p

/-- How many of the nodes have not been loaded. -/
def World.unloaded (ids : List ℕ) (w : World) : ℕ :=
  ids.countP fun id => (w.id2object id).isNone

/-- Where the loads of nodes with the property return. -/
def Succeeds {τ : Type} (platform : Platform) (kb : KB) (concepts phrases : ℕ → Prop)
    (ids : List ℕ) (property : ℕ → Prop) (depth : ℕ) (load : Loader τ) : Prop :=
  ∀ parent key linkType w map, w.kb = kb → w.Sorted concepts phrases → w.unloaded ids < depth →
    kb.loadChild platform parent key linkType = some map → property map.id →
      ∃ a w', (load parent key linkType).run w = .ok a w' ∧ w.Extended w' ∧
        w'.Sorted concepts phrases

section Unloaded

variable {ids : List ℕ} {w w' : World}

theorem World.Extended.unloaded_le (extended : w.Extended w') :
    w'.unloaded ids ≤ w.unloaded ids := by
  refine List.countP_mono_left fun id _ absent => ?_
  cases found : w.id2object id with
  | none => rfl
  | some r =>
    rw [extended.kept id r found] at absent
    exact nomatch absent

/-- A node that is registered is one less. -/
theorem World.unloaded_lt_of_update {id : ℕ} {r : ResourceRef} (member : id ∈ ids)
    (absent : w.id2object id = none) (table : w'.id2object = Function.update w.id2object id (some r)) :
    w'.unloaded ids < w.unloaded ids := by
  refine countP_lt_countP (fun id' _ absent' => ?_) member (by rw [absent]; rfl) ?_
  · by_cases here : id' = id
    · rw [here, absent]
      rfl
    · rwa [table, Function.update_of_ne here] at absent'
  · rw [table, Function.update_self]
    exact Bool.false_ne_true

end Unloaded

section Loops

variable {platform : Platform} {kb : KB} {concepts phrases property : ℕ → Prop} {ids : List ℕ}
  {depth : ℕ} {τ : Type} {load : Loader τ}
  (succeeds : Succeeds platform kb concepts phrases ids property depth load)

include succeeds

/-- Loads for the keys of children, one after the other. -/
theorem Succeeds.mapM {id : ℕ} {linkType : String} {keys : List String} {w : World}
    (same : w.kb = kb) (sorted : w.Sorted concepts phrases) (deep : w.unloaded ids < depth)
    (leads : ∀ key ∈ keys, ∃ map, kb.loadChild platform (some id) key linkType = some map ∧
      property map.id) :
    ∃ as w', (keys.mapM fun key => load (some id) key linkType).run w = .ok as w' ∧
      w.Extended w' ∧ w'.Sorted concepts phrases := by
  induction keys generalizing w with
  | nil => exact ⟨[], w, rfl, .refl w, sorted⟩
  | cons key keys ih =>
    obtain ⟨map, found, holds⟩ := leads key List.mem_cons_self
    obtain ⟨a, w₁, run, extended, sorted₁⟩ := succeeds _ _ _ w map same sorted deep found holds
    obtain ⟨as, w₂, run', extended', sorted₂⟩ := ih (extended.kb.trans same) sorted₁
      (extended.unloaded_le.trans_lt deep) fun key' later => leads key' (List.mem_cons_of_mem _ later)
    refine ⟨a :: as, w₂, ?_, extended.trans extended', sorted₂⟩
    rw [List.mapM_cons]
    simp only [EStateM.run_bind, run, run', EStateM.run_pure]

omit succeeds in
theorem run_createRawURI_of_isSome {raw : String} (reads : (KnowledgeURI.ofRaw raw).isSome)
    (w : World) : ∃ u w', (createRawURI raw).run w = .ok u w' ∧ w.Extended w' ∧
      w'.id2object = w.id2object := by
  obtain ⟨uri, read⟩ := Option.isSome_iff_exists.mp reads
  have run : (createRawURI raw).run w = (createURI uri).run w := by
    unfold createRawURI
    rw [read]
  exact ⟨_, _, run, World.Extended.of_run (World.Extended.maintains_createURI uri) rfl, rfl⟩

omit succeeds in
theorem World.Sorted.of_same {w w' : World} (sorted : w.Sorted concepts phrases)
    (same : w'.id2object = w.id2object) : w'.Sorted concepts phrases :=
  ⟨by rw [same]; exact sorted.concept, by rw [same]; exact sorted.phrase⟩

omit succeeds in
/-- An object of the class of its node is registered. -/
theorem World.Sorted.register {w w' : World} (sorted : w.Sorted concepts phrases) {id : ℕ}
    {r : ResourceRef} (table : w'.id2object = Function.update w.id2object id (some r))
    (concept : concepts id → ∃ c, r = .concept c) (phrase : phrases id → ∃ p, r = .phrase p) :
    w'.Sorted concepts phrases := by
  constructor
  · intro id' holds r' found
    rw [table] at found
    by_cases here : id' = id
    · subst here
      rw [Function.update_self, Option.some_inj] at found
      exact found ▸ concept holds
    · rw [Function.update_of_ne here] at found
      exact sorted.concept id' holds r' found
  · intro id' holds r' found
    rw [table] at found
    by_cases here : id' = id
    · subst here
      rw [Function.update_self, Option.some_inj] at found
      exact found ▸ phrase holds
    · rw [Function.update_of_ne here] at found
      exact sorted.phrase id' holds r' found

/-- The turns of `loadFrames`. -/
theorem Succeeds.foldlM {id : ℕ} {linkType : String} {keys : List String} {w : World}
    (same : w.kb = kb) (sorted : w.Sorted concepts phrases) (deep : w.unloaded ids < depth)
    (read : ∀ key ∈ keys, (KnowledgeURI.ofRaw key).isSome)
    (leads : ∀ key ∈ keys, ∃ map, kb.loadChild platform (some id) key linkType = some map ∧
      property map.id) (acc : InsertionMap UriRef τ) :
    ∃ frames w', (keys.foldlM (fun acc uri => do
      let key ← createRawURI uri
      return acc.insert key (← load (some id) uri linkType)) acc : KBProgram _).run w =
        .ok frames w' ∧ w.Extended w' ∧ w'.Sorted concepts phrases := by
  -- on the keys; what is loaded at one key only lowers what is still to be loaded
  induction keys generalizing w acc with
  | nil => exact ⟨acc, w, rfl, .refl w, sorted⟩
  | cons key keys ih =>
    obtain ⟨u, w₁, made, extended₁, table⟩ := run_createRawURI_of_isSome
      (read key List.mem_cons_self) w
    obtain ⟨map, found, holds⟩ := leads key List.mem_cons_self
    obtain ⟨a, w₂, run, extended₂, sorted₂⟩ := succeeds _ _ _ w₁ map (extended₁.kb.trans same)
      (sorted.of_same table) (extended₁.unloaded_le.trans_lt deep) found holds
    have extended := extended₁.trans extended₂
    obtain ⟨frames, w₃, run', extended₃, sorted₃⟩ := ih (extended.kb.trans same) sorted₂
      (extended.unloaded_le.trans_lt deep) (fun key' later => read key' (List.mem_cons_of_mem _ later))
      (fun key' later => leads key' (List.mem_cons_of_mem _ later)) (acc.insert u a)
    refine ⟨frames, w₃, ?_, extended.trans extended₃, sorted₃⟩
    rw [List.foldlM_cons]
    simp only [EStateM.run_bind, made, run, EStateM.run_pure, run']

/-- The frames for the children of a node. -/
theorem Succeeds.loadFrames {id : ℕ} {linkType : String} {w : World}
    (same : w.kb = kb) (sorted : w.Sorted concepts phrases) (deep : w.unloaded ids < depth)
    (read : kb.KeysRead platform id linkType) (leads : kb.LeadsTo platform property id linkType) :
    ∃ frames w', (loadFrames platform load id linkType).run w = .ok frames w' ∧
      w.Extended w' ∧ w'.Sorted concepts phrases := by
  obtain ⟨frames, w', run, extended, sorted'⟩ := succeeds.foldlM same sorted deep read leads .empty
  refine ⟨frames, w', ?_, extended, sorted'⟩
  rw [ThinkingUnderstanding.loadFrames, EStateM.run_bind, EStateM.run_get]
  dsimp only
  rw [same]
  exact run

end Loops

/-! ### Links -/

/-- The keys of a map of children lead to its nodes. -/
theorem KB.exists_get?_of_mem_childKeys {platform : Platform} {kb : KB} {parent : Option ℕ}
    {linkType key : String} (member : key ∈ kb.childKeys platform parent linkType) :
    ∃ node, (kb.loadChildrenMap platform parent linkType).get? key = some node := by
  have listed := (platform.keyOrder_perm _).mem_iff.mp member
  obtain ⟨⟨_, node⟩, entry, rfl⟩ := List.mem_map.mp listed
  exact ⟨node, InsertionMap.get?_eq_some_iff.mpr entry⟩

/-- The links of a node are read, when their keys can be. -/
theorem exists_run_loadLinks {platform : Platform} {kb : KB} {id : ℕ} {linkType : String}
    (read : kb.KeysRead platform id linkType) {w : World} (same : w.kb = kb) :
    ∃ links w', (loadLinks platform id linkType).run w = .ok links w' := by
  -- no turn fails: the keys are those of the map, and each is a text of a URI
  have turns : ∀ (keys : List String), (∀ key ∈ keys, key ∈ kb.childKeys platform (some id) linkType) →
      ∀ (acc : List LinkRef) (w : World), ∃ links w',
        (keys.foldlM (loadLink platform (kb.loadChildrenMap platform (some id) linkType)) acc).run w =
          .ok links w' := by
    intro keys
    induction keys with
    | nil => exact fun _ acc w => ⟨acc, w, rfl⟩
    | cons key keys ih =>
      intro inside acc w
      obtain ⟨node, found⟩ := KB.exists_get?_of_mem_childKeys (inside key List.mem_cons_self)
      obtain ⟨uri, reads⟩ := Option.isSome_iff_exists.mp (read key (inside key List.mem_cons_self))
      obtain ⟨links, w', run⟩ := ih (fun key' later => inside key' (List.mem_cons_of_mem _ later)) _ _
      refine ⟨links, w', ?_⟩
      rw [List.foldlM_cons]
      refine run_bind_eq_ok_iff.mpr ⟨_, _, ?_, run⟩
      rw [loadLink, found]
      unfold ConceptLink.create createRawURI
      rw [reads]
      rfl
  obtain ⟨links, w', run⟩ := turns _ (fun _ member => member) [] w
  refine ⟨links, w', ?_⟩
  rw [loadLinks, EStateM.run_bind, EStateM.run_get]
  dsimp only
  rw [same]
  exact run

/-! ### Phrases, concepts and networks -/

theorem exists_run_createConceptLine (frames : InsertionMap UriRef ConceptRef) (w : World) :
    ∃ line w', (createConceptLine frames).run w = .ok line w' ∧ w.Extended w' ∧
      w'.id2object = w.id2object :=
  ⟨_, _, rfl, World.Extended.of_run (World.Extended.maintains_createConceptLine frames) rfl, rfl⟩

section Loadable

variable {platform : Platform} {kb : KB} {concepts phrases : ℕ → Prop} {ids : List ℕ}
  (loadable : kb.Loadable platform concepts phrases)
  (covered : ∀ id, concepts id ∨ phrases id → id ∈ ids)

include loadable covered

theorem succeeds_loadPhrase (depth : ℕ) :
    Succeeds platform kb concepts phrases ids phrases depth (AnnotatedPhrase.load platform depth) := by
  induction depth with
  | zero => exact fun _ _ _ _ _ _ _ deep => absurd deep (Nat.not_lt_zero _)
  | succ depth ih =>
    intro parent key linkType w map same sorted deep found holds
    have accepted : platform.acceptsURI (KnowledgeURI.ofMap platform map).format := by
      have here := loadable.phraseAccepted map.id holds
      rwa [KB.AcceptedAt, KB.node_of_loadChild found] at here
    rw [← same] at found
    change ∃ a w', (AnnotatedPhrase.loadWith platform (AnnotatedPhrase.load platform depth) parent
      key linkType).run w = .ok a w' ∧ _
    cases cached : w.id2object map.id with
    | some r =>
      obtain ⟨p, rfl⟩ := sorted.phrase map.id holds r cached
      exact ⟨p, w, run_loadPhrase_of_cached found accepted cached, .refl w, sorted⟩
    | none =>
      -- the state in which the sub-phrases are loaded
      have children : ∀ w₁ cs, (w.beginPhrase platform map).Adds 0 w₁ →
          w₁.id2object = (w.beginPhrase platform map).id2object →
          ∃ ps w₂, ((w.kb.childKeys platform (some map.id) phrasesLinkName).mapM fun child =>
            AnnotatedPhrase.load platform depth (some map.id) child phrasesLinkName).run
              (w₁.modifyPhrase w.heap.phrases.size fun phrase => { phrase with concepts := cs }) =
                .ok ps w₂ ∧ w₂.Sorted concepts phrases := by
        intro w₁ cs adds objects
        let m := w₁.modifyPhrase w.heap.phrases.size fun phrase => { phrase with concepts := cs }
        have table : m.id2object =
            Function.update w.id2object map.id (some (.phrase w.heap.phrases.size)) := objects
        have sameKb : m.kb = kb := adds.kb.trans same
        have sorted' : m.Sorted concepts phrases := sorted.register table
          (fun other => absurd holds (loadable.apart _ other)) fun _ => ⟨_, rfl⟩
        have fewer : m.unloaded ids < w.unloaded ids :=
          World.unloaded_lt_of_update (covered _ (Or.inr holds)) cached table
        obtain ⟨ps, w₂, run, -, sorted₂⟩ := ih.mapM sameKb sorted' (by omega)
          (loadable.subPhrases map.id holds)
        exact ⟨ps, w₂, same ▸ run, sorted₂⟩
      obtain ⟨cs, w₁, ps, w₂, made, run⟩ := exists_phraseMade found accepted cached
        fun w₁ cs adds _ objects => by
          obtain ⟨ps, w₂, run, -⟩ := children w₁ cs adds objects
          exact ⟨ps, w₂, run⟩
      obtain ⟨_, _, run', sorted₂⟩ := children w₁ cs made.adds made.objects
      cases run'.symm.trans made.children
      have extended := World.Extended.of_run
        (World.Extended.maintains_loadPhrase (depth + 1) parent key linkType) run
      exact ⟨_, _, run, extended, sorted₂.of_same rfl⟩

/-- The concept of a node is finished. -/
theorem exists_run_finishConcept {depth : ℕ} {load : Loader ConceptRef}
    (succeeds : Succeeds platform kb concepts phrases ids concepts depth load) {id : ℕ}
    (holds : concepts id) {w : World} (same : w.kb = kb) (sorted : w.Sorted concepts phrases)
    (deep : w.unloaded ids < depth) (res : ConceptRef) :
    ∃ w', (Concept.finish platform load (AnnotatedPhrase.load platform depth) res id).run w =
      .ok (some res) w' ∧ w'.Sorted concepts phrases := by
  have succeedsPhrase := succeeds_loadPhrase loadable covered depth
  obtain ⟨generalisationKeys, generalisations⟩ := loadable.generalisations id holds
  obtain ⟨specialisationKeys, specialisations⟩ := loadable.specialisations id holds
  obtain ⟨phraseKeys, phraseFrames⟩ := loadable.phraseFrames id holds
  -- the frames of the concept, one line after the other
  obtain ⟨frames₁, w₁, run₁, extended₁, sorted₁⟩ :=
    succeeds.loadFrames same sorted deep generalisationKeys generalisations
  obtain ⟨g, w₂, made₂, extended₂, table₂⟩ := exists_run_createConceptLine frames₁ w₁
  have before₂ := extended₁.trans extended₂
  obtain ⟨frames₃, w₃, run₃, extended₃, sorted₃⟩ :=
    succeeds.loadFrames (before₂.kb.trans same) (sorted₁.of_same table₂)
      (before₂.unloaded_le.trans_lt deep) specialisationKeys specialisations
  obtain ⟨s, w₄, made₄, extended₄, table₄⟩ := exists_run_createConceptLine frames₃ w₃
  have before₄ := before₂.trans (extended₃.trans extended₄)
  obtain ⟨frames₅, w₅, run₅, extended₅, sorted₅⟩ :=
    succeedsPhrase.loadFrames (before₄.kb.trans same) (sorted₃.of_same table₄)
      (before₄.unloaded_le.trans_lt deep) phraseKeys phraseFrames
  have before₅ := before₄.trans extended₅
  -- the links of the concept
  obtain ⟨p, w₆, made₆, kb₆, table₆⟩ : ∃ p w₆, (createPhraseLine frames₅).run w₅ = .ok p w₆ ∧
      w₆.kb = w₅.kb ∧ w₆.id2object = w₅.id2object := ⟨_, _, rfl, rfl, rfl⟩
  obtain ⟨links, w₇, read₇⟩ := exists_run_loadLinks (loadable.links id holds)
    (kb₆.trans (before₅.kb.trans same))
  have table₇ := id2object_of_run_loadLinks read₇
  obtain ⟨w₈, assigned₈, table₈⟩ : ∃ w₈, (modifyConcept res fun concept => { concept with
      generalisations := some g
      specialisations := some s
      phrases := some p
      conceptLinks := links }).run w₇ = .ok () w₈ ∧ w₈.id2object = w₇.id2object := ⟨_, rfl, rfl⟩
  refine ⟨w₈, ?_, sorted₅.of_same (table₈.trans (table₇.trans table₆))⟩
  unfold Concept.finish
  simp only [EStateM.run_bind, run₁, made₂, run₃, made₄, run₅, made₆, read₇, assigned₈,
    EStateM.run_pure]

theorem succeeds_loadConcept (depth : ℕ) :
    Succeeds platform kb concepts phrases ids concepts depth
      (Loader.orNull (Concept.load platform depth)) := by
  induction depth with
  | zero => exact fun _ _ _ _ _ _ _ deep => absurd deep (Nat.not_lt_zero _)
  | succ depth ih =>
    intro parent key linkType w map same sorted deep found holds
    have accepted : platform.acceptsURI (KnowledgeURI.ofMap platform map).format := by
      have here := loadable.conceptAccepted map.id holds
      rwa [KB.AcceptedAt, KB.node_of_loadChild found] at here
    rw [← same] at found
    -- it is enough that the concept is loaded
    suffices ∃ c w', (Concept.loadWith platform (Concept.load platform depth)
        (AnnotatedPhrase.load platform depth) parent key linkType).run w = .ok (some c) w' ∧
          w'.Sorted concepts phrases by
      obtain ⟨c, w', run, sorted'⟩ := this
      have whole : (Loader.orNull (Concept.load platform (depth + 1)) parent key linkType).run w =
          .ok c w' := run_bind_eq_ok_iff.mpr ⟨some c, w', run, rfl⟩
      exact ⟨c, w', whole, World.Extended.of_run (World.Extended.maintains_orNull
        (World.Extended.maintains_loadConcept (depth + 1) parent key linkType)) whole, sorted'⟩
    cases cached : w.id2object map.id with
    | some r =>
      obtain ⟨c, rfl⟩ := sorted.concept map.id holds r cached
      exact ⟨c, w, run_loadConcept_of_cached found accepted cached, sorted⟩
    | none =>
      have table : (w.beginConcept platform map).id2object =
          Function.update w.id2object map.id (some (.concept w.heap.concepts.size)) := rfl
      have fewer : (w.beginConcept platform map).unloaded ids < w.unloaded ids :=
        World.unloaded_lt_of_update (covered _ (Or.inl holds)) cached table
      obtain ⟨w', run, sorted'⟩ := exists_run_finishConcept loadable covered ih holds
        (w := w.beginConcept platform map) same
        (sorted.register table (fun _ => ⟨_, rfl⟩) fun other => absurd other (loadable.apart _ holds))
        (by omega) w.heap.concepts.size
      rw [run_loadConcept_of_new found accepted cached]
      exact ⟨_, w', run, sorted'⟩

/-- A network is loaded from a node that has not been loaded. -/
theorem KB.Loadable.exists_run_loadAt {stack : ℕ} {w : World} {map : Node} (same : w.kb = kb)
    (sorted : w.Sorted concepts phrases) (deep : w.unloaded ids < stack)
    (accepted : platform.acceptsURI (KnowledgeURI.ofMap platform map).format)
    (absent : w.id2object map.id = none)
    (other : ¬ concepts map.id ∧ ¬ phrases map.id) (nodeKeys : kb.KeysRead platform map.id nodesLinkName)
    (nodes : kb.LeadsTo platform concepts map.id nodesLinkName)
    (linkKeys : kb.KeysRead platform map.id linksLinkName) :
    ∃ n w', (ConceptNetwork.loadAt platform stack map).run w = .ok n w' := by
  have succeeds := succeeds_loadConcept loadable covered stack
  let m := w.beginNetwork platform map
  have table : m.id2object =
      Function.update w.id2object map.id (some (.network w.heap.networks.size)) := rfl
  have sorted' : m.Sorted concepts phrases := sorted.register table
    (fun holds => absurd holds other.1) fun holds => absurd holds other.2
  have extended : w.Extended m := World.extended_beginNetwork absent
  have sameKb : m.kb = kb := same
  obtain ⟨frames, w₁, run₁, extended₁, sorted₁⟩ :=
    succeeds.loadFrames sameKb sorted' (extended.unloaded_le.trans_lt deep) nodeKeys nodes
  obtain ⟨links, w₂, read⟩ := exists_run_loadLinks linkKeys (extended₁.kb.trans sameKb)
  rw [run_loadAt_of_new stack accepted absent]
  exact ⟨_, _, run_bind_eq_ok_iff.mpr ⟨frames, w₁, run₁, run_bind_eq_ok_iff.mpr
    ⟨links, w₂, read, rfl⟩⟩⟩

end Loadable

end ThinkingUnderstanding
