import ThinkingUnderstanding.Persistence.Extended
import ThinkingUnderstanding.Persistence.PhraseTrees

/-!
# What a load makes of a graph of concepts

Concepts refer to each other in cycles. A load registers a concept before it loads those that it
refers to, and finds the concept in the table of objects when it comes to the same node again. So a
concept is found while it is still being made.

What holds of every load that returns is said of the concepts that have been registered since it
began: each of them is complete, which is to say that it has the data of its node, and
that its frames are the concepts registered for the nodes that are found by the keys of its
children.

## Main definitions

* `World.Framed` — concepts registered for the children of a node
* `Concept.Complete` — a concept that has been loaded
* `World.Completes` — the concepts registered since are complete

## Main results

* `finds_loadConcept` — what is loaded is registered, and complete
* `completes_finishNetwork` — the same of a network
-/

namespace ThinkingUnderstanding

open Math Semantics

variable {platform : Platform}

/-- `Concept.load`, where `null` is not expected. -/
def Loader.orNull (load : Loader (Option ConceptRef)) : Loader ConceptRef :=
  fun parent key linkType => do
    match ← load parent key linkType with
    | some c => return c
    | none => throw .nullPointerException

/-- The concept that `Concept.load` makes of a node at first. -/
def Concept.begun (map : Node) (uri : UriRef) : Concept where
  content := { value := map.properties.content.getD "", name := map.properties.content.getD "" }
  uri := uri
  probability := .ofMap map

/-- The state in which the concept of a node has been made and registered. -/
def World.beginConcept (platform : Platform) (w : World) (map : Node) : World :=
  { w with
    heap := { w.heap with
      uris := (w.heap.uris.alloc (KnowledgeURI.ofMap platform map)).modify w.heap.uris.size
        fun uri => { uri with uid := toString map.id }
      concepts := w.heap.concepts.alloc (Concept.begun map w.heap.uris.size) }
    id2object := Function.update w.id2object map.id (some (.concept w.heap.concepts.size)) }

/-- What `Concept.load` does once the concept of a node has been registered. -/
def Concept.finish (platform : Platform) (load : Loader ConceptRef) (loadPhrase : Loader PhraseRef)
    (res : ConceptRef) (id : ℕ) : KBProgram (Option ConceptRef) := do
  let generalisation ← createConceptLine (← loadFrames platform load id generalisationLinkName)
  let specialisation ← createConceptLine (← loadFrames platform load id specialisationLinkName)
  let phrases ← createPhraseLine (← loadFrames platform loadPhrase id phrasesLinkName)
  let conceptLinkList ← loadLinks platform id conceptLinkSourceName
  modifyConcept res fun concept => { concept with
    generalisations := some generalisation
    specialisations := some specialisation
    phrases := some phrases
    conceptLinks := conceptLinkList }
  return some res

section Load

variable {loadConcept : Loader (Option ConceptRef)} {loadPhrase : Loader PhraseRef} {w : World}
  {parent : Option ℕ} {key linkType : String} {map : Node}

theorem run_loadConcept_of_missing
    (missing : w.kb.loadChild platform parent key linkType = none) :
    (Concept.loadWith platform loadConcept loadPhrase parent key linkType).run w = .ok none w := by
  simp only [Concept.loadWith, EStateM.run_bind, EStateM.run_get, missing]
  rfl

theorem run_loadConcept_of_refused
    (found : w.kb.loadChild platform parent key linkType = some map)
    (refused : ¬ platform.acceptsURI (KnowledgeURI.ofMap platform map).format) :
    (Concept.loadWith platform loadConcept loadPhrase parent key linkType).run w =
      .error (.uriSyntaxException (KnowledgeURI.ofMap platform map).format) w := by
  simp only [Concept.loadWith, EStateM.run_bind, EStateM.run_get, found, KBMap.loadFromCache,
    if_neg refused]
  rfl

/-- A node that has an object is not loaded again. -/
theorem run_loadConcept_of_cached
    (found : w.kb.loadChild platform parent key linkType = some map)
    (accepted : platform.acceptsURI (KnowledgeURI.ofMap platform map).format) {r : ResourceRef}
    (cached : w.id2object map.id = some r) :
    (Concept.loadWith platform loadConcept loadPhrase parent key linkType).run w =
      match r with
      | .concept c => .ok (some c) w
      | _ => .error .classCastException w := by
  simp only [Concept.loadWith, EStateM.run_bind, EStateM.run_get, found,
    KBMap.run_loadFromCache accepted, cached]
  cases r <;> rfl

theorem run_loadConcept_of_new
    (found : w.kb.loadChild platform parent key linkType = some map)
    (accepted : platform.acceptsURI (KnowledgeURI.ofMap platform map).format)
    (new : w.id2object map.id = none) :
    (Concept.loadWith platform loadConcept loadPhrase parent key linkType).run w =
      (Concept.finish platform (Loader.orNull loadConcept) loadPhrase w.heap.concepts.size
        map.id).run (w.beginConcept platform map) := by
  let made : Heap := { w.heap with
    uris := w.heap.uris.alloc (KnowledgeURI.ofMap platform map)
    concepts := w.heap.concepts.alloc (Concept.begun map w.heap.uris.size) }
  have uri : (made.concept w.heap.concepts.size).uri = w.heap.uris.size :=
    congrArg Concept.uri (Arena.get_alloc_size ..)
  simp only [Concept.loadWith, EStateM.run_bind, EStateM.run_get, found,
    KBMap.run_loadFromCache accepted, new]
  change (Concept.finish platform (Loader.orNull loadConcept) loadPhrase w.heap.concepts.size
    map.id).run
    { w with
      heap := made.modifyURI (made.concept w.heap.concepts.size).uri fun uri =>
        { uri with uid := toString map.id }
      id2object := Function.update w.id2object map.id (some (.concept w.heap.concepts.size)) } = _
  rw [uri]
  rfl

end Load

/-! ### Complete concepts -/

/-- The objects are those registered for the nodes that are found by the keys of the children. -/
def World.Framed (platform : Platform) (w : World) (id : ℕ) (linkType : String)
    (rs : List ResourceRef) : Prop :=
  List.Forall₂ (fun key r => ∃ map, w.kb.loadChild platform (some id) key linkType = some map ∧
    w.id2object map.id = some r) (w.kb.childKeys platform (some id) linkType) rs

/-- A line of knowledge that has been made of the children of a node. -/
def World.LineLoaded (platform : Platform) (w : World) (id : ℕ) (linkType : String)
    (line : Option LineRef) : Prop :=
  ∃ l, line = some l ∧ l < w.heap.conceptLines.size ∧
    w.Framed platform id linkType ((w.heap.conceptLines.get l).values.map .concept)

/-- The concept has been made of the node, and its frames have been loaded. -/
structure Concept.Complete (platform : Platform) (w : World) (id : ℕ) (c : ConceptRef) : Prop where
  inside : c < w.heap.concepts.size
  accepted : platform.acceptsURI (KnowledgeURI.ofMap platform (w.kb.node id)).format
  uriInside : (w.heap.concept c).uri < w.heap.uris.size
  uri : w.heap.uri (w.heap.concept c).uri = KnowledgeURI.ofMap platform (w.kb.node id)
  content : (w.heap.concept c).content = (Concept.begun (w.kb.node id) 0).content
  probability : (w.heap.concept c).probability = .ofMap (w.kb.node id)
  generalisations : w.LineLoaded platform id generalisationLinkName
    (w.heap.concept c).generalisations
  specialisations : w.LineLoaded platform id specialisationLinkName
    (w.heap.concept c).specialisations

/-- The state has been extended, and the concepts that have been registered are complete. -/
structure World.Completes (platform : Platform) (w w' : World) : Prop where
  extended : w.Extended w'
  complete : ∀ id c, w'.id2object id = some (.concept c) →
    w.id2object id = some (.concept c) ∨
      (w.heap.concepts.size ≤ c ∧ Concept.Complete platform w' id c)

section Complete

variable {w w' w'' : World} {id : ℕ} {linkType : String} {c : ConceptRef}

theorem World.Framed.of_kept {rs : List ResourceRef} (framed : w.Framed platform id linkType rs)
    (kb : w'.kb = w.kb) (kept : ∀ id r, w.id2object id = some r → w'.id2object id = some r) :
    w'.Framed platform id linkType rs := by
  rw [World.Framed, kb]
  exact framed.imp fun key r ⟨map, found, registered⟩ => ⟨map, found, kept _ _ registered⟩

theorem World.LineLoaded.extended {line : Option LineRef}
    (loaded : w.LineLoaded platform id linkType line) (extended : w.Extended w') :
    w'.LineLoaded platform id linkType line := by
  obtain ⟨l, same, inside, framed⟩ := loaded
  refine ⟨l, same, inside.trans_le extended.conceptLines.size, ?_⟩
  rw [extended.conceptLines.get l inside]
  exact framed.of_kept extended.kb extended.kept

/-- A concept stays complete. -/
theorem Concept.Complete.extended (complete : Complete platform w id c)
    (extended : w.Extended w') : Complete platform w' id c := by
  have same : w'.heap.concept c = w.heap.concept c := extended.concepts.get c complete.inside
  constructor
  case inside => exact complete.inside.trans_le extended.concepts.size
  case accepted =>
    rw [extended.kb]
    exact complete.accepted
  case uriInside =>
    rw [same]
    exact complete.uriInside.trans_le extended.uris.size
  case uri =>
    rw [same, extended.kb, ← complete.uri]
    exact extended.uris.get _ complete.uriInside
  case content =>
    rw [same, extended.kb, complete.content]
  case probability =>
    rw [same, extended.kb, complete.probability]
  case generalisations =>
    rw [same]
    exact complete.generalisations.extended extended
  case specialisations =>
    rw [same]
    exact complete.specialisations.extended extended

theorem World.Completes.refl (platform : Platform) (w : World) : w.Completes platform w :=
  ⟨.refl w, fun _ _ found => Or.inl found⟩

theorem World.Completes.trans (first : w.Completes platform w')
    (second : w'.Completes platform w'') : w.Completes platform w'' where
  extended := first.extended.trans second.extended
  complete id c found := by
    rcases second.complete id c found with old | ⟨new, complete⟩
    · rcases first.complete id c old with older | ⟨new, complete⟩
      · exact Or.inl older
      · exact Or.inr ⟨new, complete.extended second.extended⟩
    · exact Or.inr ⟨first.extended.concepts.size.trans new, complete⟩

/-- Where no concept has been registered. -/
theorem World.Completes.of_registered (extended : w.Extended w')
    (registered : ∀ id c, w'.id2object id = some (.concept c) → w.id2object id = some (.concept c)) :
    w.Completes platform w' :=
  ⟨extended, fun id c found => Or.inl (registered id c found)⟩

theorem World.Completes.of_same (extended : w.Extended w') (same : w'.id2object = w.id2object) :
    w.Completes platform w' :=
  .of_registered extended fun id c found => by rwa [same] at found

end Complete

/-! ### Loads that return -/

/-- A load finds the object of a node, which is registered; the concepts that have been registered
since are complete. -/
def Finds {τ : Type} (platform : Platform) (kind : τ → ResourceRef) (load : Loader τ) : Prop :=
  ∀ parent key linkType w a w', (load parent key linkType).run w = .ok a w' →
    w.Completes platform w' ∧ ∃ map, w.kb.loadChild platform parent key linkType = some map ∧
      w'.id2object map.id = some (kind a)

section Frames

variable {w w' : World} {id : ℕ} {linkType : String} {τ : Type} {kind : τ → ResourceRef}
  {load : Loader τ}

theorem run_createRawURI_eq_ok {raw : String} {u : UriRef}
    (run : (createRawURI raw).run w = .ok u w') :
    u = w.heap.uris.size ∧ w'.heap.uris.size = w.heap.uris.size + 1 ∧
      w.Extended w' ∧ w'.id2object = w.id2object := by
  have extended := World.Extended.of_run (World.Extended.maintains_createRawURI raw) run
  unfold createRawURI at run
  cases read : KnowledgeURI.ofRaw raw with
  | some uri =>
    rw [read] at run
    cases run
    exact ⟨rfl, Arena.size_alloc .., extended, rfl⟩
  | none =>
    rw [read] at run
    cases run

variable (finds : Finds platform kind load)

include finds

/-- The turns of `loadFrames`. Each files what has been loaded under a new URI object. -/
theorem run_foldlM_frames {keys : List String} {acc frames : InsertionMap UriRef τ}
    (below : ∀ u ∈ acc.keys, u < w.heap.uris.size)
    (run : (keys.foldlM (fun acc uri => do
      let key ← createRawURI uri
      return acc.insert key (← load (some id) uri linkType)) acc : KBProgram _).run w =
        .ok frames w') :
    w.Completes platform w' ∧ ∃ as, frames.values = acc.values ++ as ∧
      List.Forall₂ (fun key a => ∃ map, w.kb.loadChild platform (some id) key linkType = some map ∧
        w'.id2object map.id = some (kind a)) keys as := by
  -- on the keys; the accumulated map is filed under URIs older than the next one
  induction keys generalizing w acc with
  | nil =>
    cases run
    exact ⟨.refl platform _, [], (List.append_nil _).symm, .nil⟩
  | cons key keys ih =>
    rw [List.foldlM_cons] at run
    obtain ⟨_, w₂, turn, run⟩ := run_bind_eq_ok_iff.mp run
    obtain ⟨u, w₁, made, turn⟩ := run_bind_eq_ok_iff.mp turn
    obtain ⟨a, _, loaded, turn⟩ := run_bind_eq_ok_iff.mp turn
    cases turn
    obtain ⟨rfl, size, extended, same⟩ := run_createRawURI_eq_ok made
    obtain ⟨completes, map, found, registered⟩ := finds _ _ _ _ _ _ loaded
    have before : w.Completes platform w₂ := (World.Completes.of_same extended same).trans completes
    have fresh : w.heap.uris.size ∉ acc.keys := fun member => (below _ member).ne rfl
    have below' : ∀ u ∈ (acc.insert w.heap.uris.size a).keys, u < w₂.heap.uris.size := by
      intro u member
      have grown : w.heap.uris.size < w₂.heap.uris.size := by
        have := completes.extended.uris.size
        omega
      rcases InsertionMap.mem_keys_insert.mp member with rfl | old
      · exact grown
      · exact (below u old).trans grown
    obtain ⟨after, as, values, children⟩ := ih below' run
    refine ⟨before.trans after, a :: as, ?_, .cons ⟨map, extended.kb ▸ found,
      after.extended.kept _ _ registered⟩ ?_⟩
    · rw [values, InsertionMap.values, InsertionMap.entries_insert_of_notMem fresh, List.map_append]
      simp [InsertionMap.values]
    · rw [before.extended.kb] at children
      exact children

/-- The frames that are loaded are those of the children. -/
theorem run_loadFrames_eq_ok {frames : InsertionMap UriRef τ}
    (run : (loadFrames platform load id linkType).run w = .ok frames w') :
    w.Completes platform w' ∧ w'.Framed platform id linkType (frames.values.map kind) := by
  obtain ⟨_, _, got, run⟩ := run_bind_eq_ok_iff.mp run
  cases got
  obtain ⟨completes, as, values, children⟩ :=
    run_foldlM_frames finds (fun _ member => absurd member List.not_mem_nil) run
  refine ⟨completes, ?_⟩
  rw [values, World.Framed, completes.extended.kb, List.forall₂_map_right_iff]
  exact children

end Frames

/-- Reading links registers nothing. -/
theorem id2object_of_run_loadLinks {w w' : World} {id : ℕ} {linkType : String} {links : List LinkRef}
    (run : (loadLinks platform id linkType).run w = .ok links w') : w'.id2object = w.id2object := by
  have same : Maintains (fun w' => w'.id2object = w.id2object) (loadLinks platform id linkType)
      fun _ => True := by
    refine maintains_get_bind fun w _ => Maintains.foldlM _ (fun uri _ acc _ => ?_) trivial
    split
    · refine Maintains.bind (Q := fun _ => True) (fun _ same => ⟨same, fun _ _ _ => trivial⟩)
        fun source _ => ?_
      refine Maintains.bind (Q := fun _ => True) (fun _ same => ⟨same, fun _ _ _ => trivial⟩)
        fun destination _ => ?_
      refine Maintains.bind (Q := fun _ => True) ?_ fun _ _ => maintains_pure trivial
      unfold ConceptLink.create createRawURI
      cases KnowledgeURI.ofRaw uri with
      | some uri => exact fun _ same => ⟨same, fun _ _ _ => trivial⟩
      | none => exact fun _ same => ⟨same, fun _ _ _ => trivial⟩
    · exact maintains_throw _
  exact same.keeps_of_run run rfl

section Phrases

variable {w₀ : World}

/-- No concept has been registered since. -/
def World.NoConceptSince (w w' : World) : Prop :=
  ∀ id c, w'.id2object id = some (.concept c) → w.id2object id = some (.concept c)

theorem maintains_of_same {α : Type} {program : KBProgram α}
    (same : ∀ w, (finalState (program.run w)).id2object = w.id2object) :
    Maintains w₀.NoConceptSince program fun _ => True :=
  fun w since => ⟨fun id c found => since id c (same w ▸ found), fun _ _ _ => trivial⟩

theorem noConceptSince_loadPhrase (stack : ℕ) (parent : Option ℕ) (key linkType : String) :
    Maintains w₀.NoConceptSince (AnnotatedPhrase.load platform stack parent key linkType)
      fun _ => True := by
  induction stack generalizing parent key linkType with
  | zero => exact maintains_throw _
  | succ stack ih =>
    refine maintains_get_bind fun w _ => ?_
    dsimp only
    split
    · exact maintains_throw _
    · refine Maintains.bind (Q := fun _ => True) ?_ fun found _ => ?_
      · unfold KBMap.loadFromCache
        dsimp only
        split_ifs
        · exact maintains_get_bind fun _ _ => maintains_pure trivial
        · exact maintains_throw _
      · split
        · exact maintains_pure trivial
        · exact maintains_throw _
        · refine (maintains_of_same fun _ => rfl).bind fun uri _ => ?_
          refine (maintains_of_same fun _ => rfl).bind fun res _ => ?_
          refine Maintains.bind (Q := fun _ => True) (fun w since => ⟨?_, fun _ _ _ => trivial⟩)
            fun _ _ => ?_
          · -- a phrase is registered
            intro id c found
            refine since id c ?_
            change Function.update w.id2object _ (some (.phrase res)) id = _ at found
            by_cases here : id = ‹Node›.id
            · rw [here, Function.update_self] at found
              exact nomatch found
            · rwa [Function.update_of_ne here] at found
          · refine maintains_get_bind fun w _ => ?_
            refine (Maintains.mapM (Q := fun _ => True) _ fun map _ =>
              maintains_of_same fun _ => rfl).bind fun concepts _ => ?_
            refine (maintains_of_same fun _ => rfl).bind fun _ _ => ?_
            refine (Maintains.mapM (Q := fun _ => True) _ fun child _ =>
              ih _ child phrasesLinkName).bind fun phrases _ => ?_
            exact (maintains_of_same fun _ => rfl).bind fun _ _ => maintains_pure trivial

/-- A phrase that is loaded is registered for the node that is found. -/
theorem finds_loadPhrase (stack : ℕ) :
    Finds platform .phrase (AnnotatedPhrase.load platform stack) := by
  intro parent key linkType w p w' run
  refine ⟨.of_registered (World.Extended.of_run
    (World.Extended.maintains_loadPhrase stack parent key linkType) run) ?_, ?_⟩
  · have since : Maintains w.NoConceptSince (AnnotatedPhrase.load platform stack parent key
        linkType) fun _ => True := noConceptSince_loadPhrase stack parent key linkType
    exact since.keeps_of_run run fun _ _ found => found
  · cases stack with
    | zero => cases run
    | succ stack =>
      obtain ⟨map, found, ⟨cached, rfl⟩ | ⟨cs, w₁, ps, w₂, made, rfl, rfl⟩⟩ := phraseMade_of_run run
      · exact ⟨map, found, cached⟩
      · refine ⟨map, found, ?_⟩
        have extended := World.Extended.of_run (Maintains.mapM (Q := fun _ => True) _
          fun child _ => World.Extended.maintains_loadPhrase stack (some map.id) child
            phrasesLinkName) made.children
        refine extended.kept map.id _ ?_
        change w₁.id2object map.id = _
        rw [made.objects]
        exact Function.update_self ..

end Phrases

section Concepts

variable {load : Loader ConceptRef} {loadPhrase : Loader PhraseRef} {w w' : World} {map : Node}

theorem World.extended_beginConcept (absent : w.id2object map.id = none) :
    w.Extended (w.beginConcept platform map) := by
  have extended : w.Extended { w with heap := { w.heap with
      uris := w.heap.uris.alloc (KnowledgeURI.ofMap platform map)
      concepts := w.heap.concepts.alloc (Concept.begun map w.heap.uris.size) } } :=
    { World.Extended.refl w with
      uris := .alloc _ _
      concepts := .alloc _ _ }
  have lacks : w.heap.Lacks (.concept w.heap.concepts.size) := le_rfl
  exact extended.register absent lacks le_rfl _

variable (platform w map) in
theorem World.concept_beginConcept :
    (w.beginConcept platform map).heap.concept w.heap.concepts.size =
      Concept.begun map w.heap.uris.size := Arena.get_alloc_size ..

variable (platform w map) in
theorem World.uri_beginConcept :
    (w.beginConcept platform map).heap.uri w.heap.uris.size = KnowledgeURI.ofMap platform map := by
  have made := Arena.get_modify_self (w.heap.uris.alloc (KnowledgeURI.ofMap platform map))
    w.heap.uris.size fun uri => { uri with uid := toString map.id }
  rw [Arena.get_alloc_size] at made
  exact made

variable (platform w map) in
theorem World.lt_size_beginConcept :
    w.heap.concepts.size < (w.beginConcept platform map).heap.concepts.size ∧
      w.heap.uris.size < (w.beginConcept platform map).heap.uris.size := by
  constructor
  · exact Nat.lt_of_lt_of_eq (Nat.lt_succ_self _) (Arena.size_alloc ..).symm
  · exact Nat.lt_of_lt_of_le (Nat.lt_of_lt_of_eq (Nat.lt_succ_self _) (Arena.size_alloc ..).symm)
      (Arena.size_le_size_modify ..)

/-- Another concept stays complete when one is assigned to. -/
theorem Concept.Complete.modifyConcept {id : ℕ} {c res : ConceptRef}
    (complete : Complete platform w id c) (other : c ≠ res) (f : Concept → Concept) :
    Complete platform { w with heap := { w.heap with concepts := w.heap.concepts.modify res f } }
      id c := by
  have same : (w.heap.concepts.modify res f).get c = w.heap.concepts.get c :=
    Arena.get_modify_of_ne _ other f
  constructor
  case inside => exact complete.inside.trans_le (Arena.size_le_size_modify ..)
  case accepted => exact complete.accepted
  case uriInside =>
    rw [Heap.concept, same]
    exact complete.uriInside
  case uri =>
    rw [Heap.concept, same]
    exact complete.uri
  case content =>
    rw [Heap.concept, same]
    exact complete.content
  case probability =>
    rw [Heap.concept, same]
    exact complete.probability
  case generalisations =>
    rw [Heap.concept, same]
    exact complete.generalisations
  case specialisations =>
    rw [Heap.concept, same]
    exact complete.specialisations

theorem run_createConceptLine_eq_ok {frames : InsertionMap UriRef ConceptRef} {line : LineRef}
    (run : (createConceptLine frames).run w = .ok line w') :
    w'.id2object = w.id2object ∧ line < w'.heap.conceptLines.size ∧
      w'.heap.conceptLines.get line = { frames } := by
  cases run
  exact ⟨rfl, Nat.lt_of_lt_of_eq (Nat.lt_succ_self _) (Arena.size_alloc ..).symm,
    Arena.get_alloc_size ..⟩

/-- A line of knowledge that is loaded. -/
theorem run_loadLine_eq_ok (finds : Finds platform .concept load) {id : ℕ} {linkType : String}
    {line : LineRef}
    (run : (do createConceptLine (← loadFrames platform load id linkType) : KBProgram LineRef).run w =
      .ok line w') :
    w.Completes platform w' ∧ w'.LineLoaded platform id linkType (some line) := by
  obtain ⟨frames, w₁, loaded, made⟩ := run_bind_eq_ok_iff.mp run
  obtain ⟨before, framed⟩ := run_loadFrames_eq_ok finds loaded
  have after : w₁.Completes platform w' := .of_same
    (World.Extended.of_run (World.Extended.maintains_createConceptLine frames) made)
    (run_createConceptLine_eq_ok made).1
  obtain ⟨-, inside, same⟩ := run_createConceptLine_eq_ok made
  refine ⟨before.trans after, line, rfl, inside, ?_⟩
  rw [same]
  exact framed.of_kept after.extended.kb after.extended.kept

/-- The steps of `Concept.finish`: the lines, the phrases and the links are loaded one after the
other, and last they are assigned. -/
theorem run_finish_eq_ok (finds : Finds platform .concept load)
    (findsPhrase : Finds platform .phrase loadPhrase) {res : ConceptRef} {id : ℕ}
    {result : Option ConceptRef}
    (run : (Concept.finish platform load loadPhrase res id).run w = .ok result w') :
    result = some res ∧ ∃ m g s ps links, w.Completes platform m ∧
      m.LineLoaded platform id generalisationLinkName (some g) ∧
      m.LineLoaded platform id specialisationLinkName (some s) ∧
      w' = { m with heap := { m.heap with concepts := m.heap.concepts.modify res fun concept =>
        { concept with
          generalisations := some g
          specialisations := some s
          phrases := some ps
          conceptLinks := links } } } := by
  obtain ⟨frames, w₁, loaded, run⟩ := run_bind_eq_ok_iff.mp run
  obtain ⟨g, w₂, made, run⟩ := run_bind_eq_ok_iff.mp run
  obtain ⟨completes₂, generalisations⟩ := run_loadLine_eq_ok finds
    (run_bind_eq_ok_iff.mpr ⟨frames, w₁, loaded, made⟩)
  obtain ⟨frames', w₃, loaded', run⟩ := run_bind_eq_ok_iff.mp run
  obtain ⟨s, w₄, made', run⟩ := run_bind_eq_ok_iff.mp run
  obtain ⟨completes₄, specialisations⟩ := run_loadLine_eq_ok finds
    (run_bind_eq_ok_iff.mpr ⟨frames', w₃, loaded', made'⟩)
  obtain ⟨phrases, w₅, loaded'', run⟩ := run_bind_eq_ok_iff.mp run
  obtain ⟨completes₅, -⟩ := run_loadFrames_eq_ok findsPhrase loaded''
  obtain ⟨ps, w₆, made'', run⟩ := run_bind_eq_ok_iff.mp run
  have extended₆ := World.Extended.of_run (World.Extended.maintains_createPhraseLine _) made''
  have completes₆ : w₅.Completes platform w₆ := by
    cases made''
    exact .of_same extended₆ rfl
  obtain ⟨links, w₇, read, run⟩ := run_bind_eq_ok_iff.mp run
  have completes₇ : w₆.Completes platform w₇ :=
    .of_same (World.Extended.of_run (World.Extended.maintains_loadLinks _ _) read)
      (id2object_of_run_loadLinks read)
  obtain ⟨_, _, assigned, run⟩ := run_bind_eq_ok_iff.mp run
  cases assigned
  cases run
  have behind := completes₅.trans (completes₆.trans completes₇)
  exact ⟨rfl, w₇, g, s, ps, links, completes₂.trans (completes₄.trans behind),
    generalisations.extended (completes₄.trans behind).extended,
    specialisations.extended behind.extended, rfl⟩

/-- The concept that was begun is complete when loaded lines are assigned to it. -/
theorem Concept.complete_assigned (own : w.kb.node map.id = map)
    (accepted : platform.acceptsURI (KnowledgeURI.ofMap platform map).format) {m : World}
    (extended : (w.beginConcept platform map).Extended m) {g s : LineRef}
    (generalisations : m.LineLoaded platform map.id generalisationLinkName (some g))
    (specialisations : m.LineLoaded platform map.id specialisationLinkName (some s))
    (ps : LineRef) (links : List LinkRef) :
    Complete platform { m with heap := { m.heap with
      concepts := m.heap.concepts.modify w.heap.concepts.size fun concept => { concept with
        generalisations := some g
        specialisations := some s
        phrases := some ps
        conceptLinks := links } } } map.id w.heap.concepts.size := by
  obtain ⟨inside, uriInside⟩ := w.lt_size_beginConcept platform map
  have concept : m.heap.concepts.get w.heap.concepts.size = Concept.begun map w.heap.uris.size :=
    (extended.concepts.get _ inside).trans (w.concept_beginConcept platform map)
  have uri : m.heap.uri w.heap.uris.size = KnowledgeURI.ofMap platform map :=
    (extended.uris.get _ uriInside).trans (w.uri_beginConcept platform map)
  have node : m.kb.node map.id = map := by
    rw [extended.kb]
    exact own
  have assigned := Arena.get_modify_self m.heap.concepts w.heap.concepts.size
    fun concept => { concept with
      generalisations := some g
      specialisations := some s
      phrases := some ps
      conceptLinks := links }
  rw [concept] at assigned
  constructor
  case inside =>
    exact (inside.trans_le extended.concepts.size).trans_le (Arena.size_le_size_modify ..)
  case accepted =>
    rw [node]
    exact accepted
  case uriInside =>
    rw [Heap.concept, assigned]
    exact uriInside.trans_le extended.uris.size
  case uri =>
    rw [node, Heap.concept, assigned]
    exact uri
  case content =>
    rw [node, Heap.concept, assigned]
    rfl
  case probability =>
    rw [node, Heap.concept, assigned]
    rfl
  case generalisations =>
    rw [Heap.concept, assigned]
    exact generalisations
  case specialisations =>
    rw [Heap.concept, assigned]
    exact specialisations

/-- The concept of a node is finished: it is complete, and so are those that have been registered
meanwhile. -/
theorem completes_finish (finds : Finds platform .concept load)
    (findsPhrase : Finds platform .phrase loadPhrase) (own : w.kb.node map.id = map)
    (accepted : platform.acceptsURI (KnowledgeURI.ofMap platform map).format)
    (absent : w.id2object map.id = none) (extended : w.Extended w') {result : Option ConceptRef}
    (run : (Concept.finish platform load loadPhrase w.heap.concepts.size map.id).run
      (w.beginConcept platform map) = .ok result w') :
    result = some w.heap.concepts.size ∧ w.Completes platform w' ∧
      w'.id2object map.id = some (.concept w.heap.concepts.size) := by
  have begins : w.Extended (w.beginConcept platform map) := World.extended_beginConcept absent
  obtain ⟨inside, -⟩ := w.lt_size_beginConcept platform map
  obtain ⟨rfl, m, g, s, ps, links, all, generalisations, specialisations, rfl⟩ :=
    run_finish_eq_ok finds findsPhrase run
  have registered : m.id2object map.id = some (.concept w.heap.concepts.size) :=
    all.extended.kept _ _ (Function.update_self ..)
  refine ⟨rfl, ⟨extended, fun id c found => ?_⟩, registered⟩
  rcases all.complete id c found with old | ⟨new, complete⟩
  · change Function.update w.id2object map.id _ id = some (.concept c) at old
    by_cases here : id = map.id
    · subst here
      rw [Function.update_self, Option.some_inj] at old
      cases old
      exact Or.inr ⟨le_rfl, Concept.complete_assigned own accepted all.extended generalisations
        specialisations ps links⟩
    · rw [Function.update_of_ne here] at old
      exact Or.inl old
  · -- it has been made after the concept
    refine Or.inr ⟨begins.concepts.size.trans new, complete.modifyConcept ?_ _⟩
    exact (inside.trans_le new).ne'

/-- A concept that is loaded is registered for the node that is found. -/
theorem finds_loadConcept (stack : ℕ) :
    Finds platform .concept (Loader.orNull (Concept.load platform stack)) := by
  induction stack with
  | zero => exact fun _ _ _ _ _ _ run => nomatch run
  | succ stack ih =>
    intro parent key linkType w c w' run
    have extended := World.Extended.of_run (World.Extended.maintains_orNull
      (World.Extended.maintains_loadConcept (stack + 1) parent key linkType)) run
    obtain ⟨result, _, loaded, run⟩ := run_bind_eq_ok_iff.mp run
    cases result with
    | none => cases run
    | some c' =>
      cases run
      change (Concept.loadWith platform (Concept.load platform stack)
        (AnnotatedPhrase.load platform stack) parent key linkType).run w = _ at loaded
      cases found : w.kb.loadChild platform parent key linkType with
      | none =>
        rw [run_loadConcept_of_missing found] at loaded
        cases loaded
      | some map =>
        by_cases accepted : platform.acceptsURI (KnowledgeURI.ofMap platform map).format = true
        · -- a node whose object is of another class is no concept, and the load fails
          cases cached : w.id2object map.id with
          | some r =>
            rw [run_loadConcept_of_cached found accepted cached] at loaded
            cases r with
            | concept c =>
              cases loaded
              exact ⟨.refl platform _, map, rfl, cached⟩
            | phrase p => exact nomatch loaded
            | link l => exact nomatch loaded
            | network n => exact nomatch loaded
          | none =>
            rw [run_loadConcept_of_new found accepted cached] at loaded
            obtain ⟨same, completes, registered⟩ := completes_finish ih (finds_loadPhrase stack)
              (KB.node_of_loadChild found) accepted cached extended loaded
            cases same
            exact ⟨completes, map, rfl, registered⟩
        · rw [run_loadConcept_of_refused found accepted] at loaded
          cases loaded

end Concepts

/-! ### Networks -/

/-- The network that `ConceptNetwork.load` makes of a node at first. -/
def ConceptNetwork.begun (map : Node) (uri : UriRef) : ConceptNetwork where
  uri := uri
  probability := .ofMap map

/-- The state in which the network of a node has been made and registered. -/
def World.beginNetwork (platform : Platform) (w : World) (map : Node) : World :=
  { w with
    heap := { w.heap with
      uris := (w.heap.uris.alloc (KnowledgeURI.ofMap platform map)).modify w.heap.uris.size
        fun uri => { uri with uid := toString map.id }
      networks := w.heap.networks.alloc (ConceptNetwork.begun map w.heap.uris.size) }
    id2object := Function.update w.id2object map.id (some (.network w.heap.networks.size)) }

/-- What `ConceptNetwork.load` does once the network of a node has been registered. -/
def ConceptNetwork.finish (platform : Platform) (load : Loader ConceptRef) (res : NetworkRef)
    (id : ℕ) : KBProgram NetworkRef := do
  let concepts ← loadFrames platform load id nodesLinkName
  let conceptLinkList ← loadLinks platform id linksLinkName
  modifyNetwork res fun network => { network with
    nodes := concepts.values
    links := conceptLinkList }
  return res

/-- The network has been made of the node, and its nodes have been loaded. -/
structure ConceptNetwork.Complete (platform : Platform) (w : World) (id : ℕ) (n : NetworkRef) :
    Prop where
  registered : w.id2object id = some (.network n)
  uri : w.heap.uri (w.heap.network n).uri = KnowledgeURI.ofMap platform (w.kb.node id)
  probability : (w.heap.network n).probability = .ofMap (w.kb.node id)
  nodes : w.Framed platform id nodesLinkName ((w.heap.network n).nodes.map .concept)
  links : ∃ m m', m.kb = w.kb ∧
    (loadLinks platform id linksLinkName).run m = .ok (w.heap.network n).links m'

section Networks

variable {load : Loader ConceptRef} {w w' : World} {parent : Option ℕ} {key linkType : String}
  {map : Node}

/-- A network is loaded from the node that is found. -/
theorem run_loadNetwork (stack : ℕ)
    (found : w.kb.loadChild platform parent key linkType = some map) :
    (ConceptNetwork.load platform stack parent key linkType).run w =
      (ConceptNetwork.loadAt platform stack map).run w := by
  rw [ConceptNetwork.load_eq, EStateM.run_bind, EStateM.run_get]
  dsimp only
  rw [found]

theorem run_loadAt_of_new (stack : ℕ)
    (accepted : platform.acceptsURI (KnowledgeURI.ofMap platform map).format)
    (new : w.id2object map.id = none) :
    (ConceptNetwork.loadAt platform stack map).run w =
      (ConceptNetwork.finish platform (Loader.orNull (Concept.load platform stack))
        w.heap.networks.size map.id).run (w.beginNetwork platform map) := by
  let made : Heap := { w.heap with
    uris := w.heap.uris.alloc (KnowledgeURI.ofMap platform map)
    networks := w.heap.networks.alloc (ConceptNetwork.begun map w.heap.uris.size) }
  have uri : (made.network w.heap.networks.size).uri = w.heap.uris.size :=
    congrArg ConceptNetwork.uri (Arena.get_alloc_size ..)
  simp only [ConceptNetwork.loadAt, EStateM.run_bind, KBMap.run_loadFromCache accepted, new]
  change (ConceptNetwork.finish platform (Loader.orNull (Concept.load platform stack))
    w.heap.networks.size map.id).run
    { w with
      heap := made.modifyURI (made.network w.heap.networks.size).uri fun uri =>
        { uri with uid := toString map.id }
      id2object := Function.update w.id2object map.id (some (.network w.heap.networks.size)) } = _
  rw [uri]
  rfl

theorem World.extended_beginNetwork (absent : w.id2object map.id = none) :
    w.Extended (w.beginNetwork platform map) := by
  have extended : w.Extended { w with heap := { w.heap with
      uris := w.heap.uris.alloc (KnowledgeURI.ofMap platform map)
      networks := w.heap.networks.alloc (ConceptNetwork.begun map w.heap.uris.size) } } :=
    { World.Extended.refl w with
      uris := .alloc _ _
      networks := .alloc _ _ }
  have lacks : w.heap.Lacks (.network w.heap.networks.size) := le_rfl
  exact extended.register absent lacks le_rfl _

/-- The network of a node is finished: it is complete, and so are the concepts that have been
registered meanwhile. -/
theorem completes_finishNetwork (finds : Finds platform .concept load)
    (own : w.kb.node map.id = map) (extended : w.Extended w') {n : NetworkRef}
    (run : (ConceptNetwork.finish platform load w.heap.networks.size map.id).run
      (w.beginNetwork platform map) = .ok n w') :
    n = w.heap.networks.size ∧ w.Completes platform w' ∧
      ConceptNetwork.Complete platform w' map.id n := by
  have inside : w.heap.networks.size < (w.beginNetwork platform map).heap.networks.size :=
    Nat.lt_of_lt_of_eq (Nat.lt_succ_self _) (Arena.size_alloc ..).symm
  have uriInside : w.heap.uris.size < (w.beginNetwork platform map).heap.uris.size :=
    Nat.lt_of_lt_of_le (Nat.lt_of_lt_of_eq (Nat.lt_succ_self _) (Arena.size_alloc ..).symm)
      (Arena.size_le_size_modify ..)
  -- the run is the frames, then the links, and last the assignment to the network
  obtain ⟨frames, w₁, loaded, run⟩ := run_bind_eq_ok_iff.mp run
  obtain ⟨completes₁, framed⟩ := run_loadFrames_eq_ok finds loaded
  obtain ⟨links, w₂, read, run⟩ := run_bind_eq_ok_iff.mp run
  have extended₂ := World.Extended.of_run (World.Extended.maintains_loadLinks _ _) read
  have same := id2object_of_run_loadLinks read
  have all := completes₁.trans (.of_same extended₂ same)
  obtain ⟨_, _, assigned, run⟩ := run_bind_eq_ok_iff.mp run
  cases assigned
  cases run
  -- neither the frames nor the links write to the network that was begun
  have network : w₂.heap.networks.get w.heap.networks.size = ConceptNetwork.begun map w.heap.uris.size :=
    (all.extended.networks.get _ inside).trans (Arena.get_alloc_size ..)
  have uri : w₂.heap.uri w.heap.uris.size = KnowledgeURI.ofMap platform map := by
    have made := Arena.get_modify_self (w.heap.uris.alloc (KnowledgeURI.ofMap platform map))
      w.heap.uris.size fun uri => { uri with uid := toString map.id }
    rw [Arena.get_alloc_size] at made
    exact (all.extended.uris.get _ uriInside).trans made
  have assigned := Arena.get_modify_self w₂.heap.networks w.heap.networks.size
    fun network => { network with
      nodes := frames.values
      links := links }
  rw [network] at assigned
  have node : w₂.kb.node map.id = map := by
    rw [all.extended.kb]
    exact own
  refine ⟨rfl, ⟨extended, fun id c found => ?_⟩, ?_, ?_, ?_, ?_, w₁, w₂, ?_⟩
  · -- a concept that is registered is not the network
    rcases all.complete id c found with old | ⟨new, complete⟩
    · change Function.update w.id2object map.id _ id = some (.concept c) at old
      by_cases here : id = map.id
      · rw [here, Function.update_self] at old
        exact nomatch old
      · rw [Function.update_of_ne here] at old
        exact Or.inl old
    · exact Or.inr ⟨new, { complete with }⟩
  · exact all.extended.kept _ _ (Function.update_self ..)
  · rw [node, Heap.network, assigned]
    exact uri
  · rw [node, Heap.network, assigned]
    rfl
  · rw [Heap.network, assigned]
    exact framed.of_kept extended₂.kb extended₂.kept
  · rw [Heap.network, assigned]
    exact ⟨extended₂.kb.symm, read⟩

end Networks

end ThinkingUnderstanding
