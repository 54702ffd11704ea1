import ThinkingUnderstanding.Persistence.FreshProcess
import ThinkingUnderstanding.Persistence.SavedGraph

/-!
# Trees of annotated phrases

A phrase is stored below its parent with its sub-phrases and its concepts below it, each under
the text of its URI. The load reads the sub-phrases as a map, by these texts, and looks for each of
them by its text among the relationships of the phrase, that to its parent included; the concepts
are copies. The index that is stored is that of the constructor, not the one assigned since.

So a tree is restored when the texts tell the sub-phrases of a phrase apart, from each other and
from the phrase, and the hash map enumerates the texts in the order of the sub-phrases.

## Main definitions

* `Heap.IsPhraseTree` — a phrase with its sub-phrases is a tree
* `PhraseRestored` — the loaded tree is the one that was saved
* `PhraseAlwaysRoundTrips` — saving and loading restores it, however relationships are enumerated
* `TreeRestorable` — the condition

## Main results

* `phraseMade_of_run` — a load that returns has found the phrase of a node, or has made it
* `exists_phraseMade` — it makes the phrase, when the sub-phrases can be loaded
-/

namespace ThinkingUnderstanding

open Math Semantics

namespace Heap

variable (heap : Heap)

/-- The phrases of a tree, to a given height, in preorder. -/
def phrasesBelow : ℕ → PhraseRef → List PhraseRef
  | 0, _ => []
  | height + 1, p => p :: (heap.phrase p).phrases.flatMap (phrasesBelow height)

/-- The tree below a phrase has at most the given height. -/
def HasHeight : ℕ → PhraseRef → Prop
  | 0, _ => False
  | height + 1, p => ∀ q ∈ (heap.phrase p).phrases, HasHeight height q

/-- A phrase with its sub-phrases is a tree: no phrase is in it twice. -/
structure IsPhraseTree (height : ℕ) (p : PhraseRef) : Prop where
  bounded : heap.HasHeight height p
  distinct : (heap.phrasesBelow height p).Nodup

end Heap

/-- A concept that was loaded in the state `w` has the data of one that was saved in `t`. -/
structure ConceptCopied (t w : World) (c c' : ConceptRef) : Prop where
  identity : w.heap.uid (.concept c') = t.heap.uid (.concept c)
  name : (w.heap.uri (w.heap.concept c').uri).name = (t.heap.uri (t.heap.concept c).uri).name
  content : (w.heap.concept c').content = (t.heap.concept c).content
  probability : (w.heap.concept c').probability = (t.heap.concept c).probability

/-- A phrase that was loaded in the state `w` has the data of one that was saved in `t`, apart
from its sub-phrases. The order of the concepts is left open. -/
structure PhraseCopied (t w : World) (p p' : PhraseRef) : Prop where
  identity : w.heap.uid (.phrase p') = t.heap.uid (.phrase p)
  text : (w.heap.phrase p').text = (t.heap.phrase p).text
  sentenceIndex : (w.heap.phrase p').sentenceIndex = (t.heap.phrase p).sentenceIndex
  concepts : ∃ cs : List ConceptRef, cs.Perm (t.heap.phrase p).concepts ∧
    List.Forall₂ (ConceptCopied t w) cs (w.heap.phrase p').concepts

/-- A tree of phrases that was loaded in the state `w` is the one that was saved in `t`. -/
def PhraseRestored (t w : World) : ℕ → PhraseRef → PhraseRef → Prop
  | 0, _, _ => False
  | height + 1, p, p' => PhraseCopied t w p p' ∧
      List.Forall₂ (PhraseRestored t w height) (t.heap.phrase p).phrases (w.heap.phrase p').phrases

/-- The platform, with another order in which relationships are enumerated. -/
def Platform.withOrder (platform : Platform) (order : List Relationship → List Relationship)
    (order_perm : ∀ rels, (order rels).Perm rels) : Platform :=
  { platform with order, order_perm }

section RoundTrip

variable (platform : Platform) (stack : ℕ) (s : World) (p : PhraseRef) (parent : Option ℕ)
  (key linkType : String)

/-- The tree is saved, and what a fresh process loads by the key is the tree. -/
def PhraseRoundTrips : Prop :=
  ∃ t, (saveAnew platform stack (.phrase p) parent key linkType).run s = .ok () t ∧
    ∀ w₀, FreshProcess t w₀ → ∃ p' w,
      (AnnotatedPhrase.load platform stack parent key linkType).run w₀ = .ok p' w ∧
      PhraseRestored t w stack p p'

/-- The tree is saved and loaded, whatever order the store returns relationships in. -/
def PhraseAlwaysRoundTrips : Prop :=
  ∀ order order_perm,
    PhraseRoundTrips (platform.withOrder order order_perm) stack s p parent key linkType

/-- The plan of the save of a phrase. -/
def World.phrasePlan : SavePlan := s.savePlan stack (rootCall (.phrase p) key linkType)

/-- When a tree of phrases is restored, in terms of the plan of its save. -/
structure TreeRestorable : Prop where
  /-- The texts under which objects are saved are accepted. -/
  pass : (s.phrasePlan stack p key linkType).AllPass platform
  /-- The parent is not related to anything else with the key. -/
  new : ∀ rel ∈ s.kb.relationshipsOf (s.kb.getNodeById parent) linkType, rel.key ≠ key
  /-- The texts that are made of the nodes are accepted. -/
  accepted : ∀ q ∈ s.heap.phrasesBelow stack p, platform.acceptsURI (KnowledgeURI.ofMap platform
    ⟨(s.phrasePlan stack p key linkType).nodeOf (.phrase q), s.heap.exported (.phrase q)⟩).format
  /-- The index has not been assigned, or is the same. -/
  sentenceIndex : ∀ q ∈ s.heap.phrasesBelow stack p,
    (s.heap.phrase q).sentenceIndex = (s.heap.phrase q).index
  contents : ∀ q ∈ s.heap.phrasesBelow stack p, ∀ c ∈ (s.heap.phrase q).concepts,
    (s.heap.concept c).content.value = (s.heap.concept c).content.name
  conceptTexts : ∀ q ∈ s.heap.phrasesBelow stack p, ((s.heap.phrase q).concepts.map fun c =>
    (s.phrasePlan stack p key linkType).textOf (.concept c)).Nodup
  texts : ∀ q ∈ s.heap.phrasesBelow stack p, ((s.heap.phrase q).phrases.map fun q' =>
    (s.phrasePlan stack p key linkType).textOf (.phrase q')).Nodup
  /-- The phrase is not reached under the text of a sub-phrase. -/
  own : ∀ q ∈ s.heap.phrasesBelow stack p, ∀ q' ∈ (s.heap.phrase q).phrases,
    ∀ rel ∈ (s.phrasePlan stack p key linkType).planned (s.kb.getNodeById parent)
      (rootCall (.phrase p) key linkType), rel.type = phrasesLinkName →
        rel.endNode = (s.phrasePlan stack p key linkType).nodeOf (.phrase q) →
          rel.key ≠ (s.phrasePlan stack p key linkType).textOf (.phrase q')
  /-- The texts of the sub-phrases are enumerated in their order, however the map was filled. -/
  ordered : ∀ q ∈ s.heap.phrasesBelow stack p, ∀ keys : List String,
    keys.Perm ((s.heap.phrase q).phrases.map fun q' =>
      (s.phrasePlan stack p key linkType).textOf (.phrase q')) →
    platform.keyOrder keys = (s.heap.phrase q).phrases.map fun q' =>
      (s.phrasePlan stack p key linkType).textOf (.phrase q')

end RoundTrip

/-! ### What a load does -/

/-- URIs and concepts have been created, and phrases; of these, none from the bound `b` on has
been changed, and the others have kept their URIs. -/
structure World.Adds (b : ℕ) (w w' : World) : Prop where
  kb : w'.kb = w.kb
  uris : w.heap.uris.Extends w'.heap.uris
  concepts : w.heap.concepts.Extends w'.heap.concepts
  size : w.heap.phrases.size ≤ w'.heap.phrases.size
  phrase : ∀ p, b ≤ p → p < w.heap.phrases.size → w'.heap.phrase p = w.heap.phrase p
  uri : ∀ p < w.heap.phrases.size, (w'.heap.phrase p).uri = (w.heap.phrase p).uri

namespace World.Adds

variable {b b' : ℕ} {w w' w'' : World}

theorem refl (w : World) : w.Adds b w :=
  ⟨rfl, .refl _, .refl _, le_rfl, fun _ _ _ => rfl, fun _ _ => rfl⟩

theorem trans (first : World.Adds b w w') (second : World.Adds b w' w'') : World.Adds b w w'' where
  kb := second.kb.trans first.kb
  uris := first.uris.trans second.uris
  concepts := first.concepts.trans second.concepts
  size := first.size.trans second.size
  phrase p above present :=
    (second.phrase p above (present.trans_le first.size)).trans (first.phrase p above present)
  uri p present := (second.uri p (present.trans_le first.size)).trans (first.uri p present)

theorem mono (adds : World.Adds b w w') (le : b ≤ b') : World.Adds b' w w' :=
  { adds with phrase := fun p above => adds.phrase p (le.trans above) }

/-- The URI object of a phrase is unchanged. -/
theorem uid_phrase (adds : World.Adds b w w') {p : PhraseRef} (present : p < w.heap.phrases.size)
    (uri : (w.heap.phrase p).uri < w.heap.uris.size) :
    w'.heap.uid (.phrase p) = w.heap.uid (.phrase p) := by
  change (w'.heap.uri (w'.heap.phrase p).uri).uid = (w.heap.uri (w.heap.phrase p).uri).uid
  rw [adds.uri p present]
  exact congrArg KnowledgeURI.uid (adds.uris.get _ uri)

end World.Adds

/-- The concept is a copy made of a node. -/
structure Concept.MadeOf (platform : Platform) (w : World) (map : Node) (c : ConceptRef) : Prop where
  inside : c < w.heap.concepts.size
  uriInside : (w.heap.concept c).uri < w.heap.uris.size
  uri : w.heap.uri (w.heap.concept c).uri = KnowledgeURI.ofMap platform map
  content : (w.heap.concept c).content =
    ⟨map.properties.content.getD "NONAME", map.properties.content.getD "NONAME"⟩
  probability : (w.heap.concept c).probability = .ofMap map

theorem Concept.MadeOf.adds {platform : Platform} {b : ℕ} {w w' : World} {map : Node}
    {c : ConceptRef} (made : MadeOf platform w map c) (adds : w.Adds b w') :
    MadeOf platform w' map c := by
  have same : w'.heap.concept c = w.heap.concept c := adds.concepts.get c made.inside
  constructor
  case inside => exact made.inside.trans_le adds.concepts.size
  case uriInside =>
    rw [same]
    exact made.uriInside.trans_le adds.uris.size
  case uri =>
    rw [same]
    exact (adds.uris.get _ made.uriInside).trans made.uri
  case content =>
    rw [same, made.content]
  case probability =>
    rw [same, made.probability]

/-- A new concept changes nothing else. -/
theorem Concept.run_ofMap (platform : Platform) (map : Node) (w : World) :
    ∃ c w', (Concept.ofMap platform map).run w = .ok c w' ∧ MadeOf platform w' map c ∧
      w.Adds 0 w' ∧ w'.heap.phrases = w.heap.phrases ∧ w'.id2object = w.id2object := by
  refine ⟨_, _, rfl, ?_, ?_, rfl, rfl⟩
  · have concept := Arena.get_alloc_size w.heap.concepts
    constructor
    case inside => exact Nat.lt_of_lt_of_eq (Nat.lt_succ_self _) (Arena.size_alloc ..).symm
    case uriInside =>
      rw [Heap.concept, concept]
      exact Nat.lt_of_lt_of_eq (Nat.lt_succ_self _) (Arena.size_alloc ..).symm
    case uri =>
      rw [Heap.concept, concept]
      exact Arena.get_alloc_size ..
    case content =>
      rw [Heap.concept, concept]
    case probability =>
      rw [Heap.concept, concept]
  · exact ⟨rfl, .alloc .., .alloc .., le_rfl, fun _ _ _ => rfl, fun _ _ => rfl⟩

/-- Copies are made of the nodes, one by one. -/
theorem Concept.run_mapM_ofMap (platform : Platform) (maps : List Node) (w : World) :
    ∃ cs w', (maps.mapM (Concept.ofMap platform)).run w = .ok cs w' ∧
      List.Forall₂ (MadeOf platform w') maps cs ∧
      w.Adds 0 w' ∧ w'.heap.phrases = w.heap.phrases ∧ w'.id2object = w.id2object := by
  induction maps generalizing w with
  | nil => exact ⟨[], w, rfl, .nil, .refl w, rfl, rfl⟩
  | cons map maps ih =>
    obtain ⟨c, w₁, run₁, made, adds₁, phrases₁, objects₁⟩ := run_ofMap platform map w
    obtain ⟨cs, w₂, run₂, rest, adds₂, phrases₂, objects₂⟩ := ih w₁
    refine ⟨c :: cs, w₂, ?_, .cons (made.adds adds₂) rest, adds₁.trans adds₂,
      phrases₂.trans phrases₁, objects₂.trans objects₁⟩
    rw [List.mapM_cons]
    simp only [EStateM.run_bind, run₁, run₂, EStateM.run_pure]

/-- The state in which the phrase of a node has been made and registered. -/
def World.beginPhrase (platform : Platform) (w : World) (map : Node) : World :=
  { w with
    heap := { w.heap with
      uris := (w.heap.uris.alloc (KnowledgeURI.ofMap platform map)).modify w.heap.uris.size
        fun uri => { uri with uid := toString map.id }
      phrases := w.heap.phrases.alloc
        { uri := w.heap.uris.size
          probability := .ofMap map
          text := map.properties.text.getD ""
          index := map.properties.index.getD "0.0" } }
    id2object := Function.update w.id2object map.id (some (.phrase w.heap.phrases.size)) }

/-- The state in which a phrase has been assigned to. -/
def World.modifyPhrase (w : World) (p : PhraseRef) (f : AnnotatedPhrase → AnnotatedPhrase) : World :=
  { w with heap := { w.heap with phrases := w.heap.phrases.modify p f } }

/-- What a load does once the phrase of a node has been registered. -/
def AnnotatedPhrase.finish (platform : Platform) (load : Loader PhraseRef) (res : PhraseRef)
    (map : Node) : KBProgram PhraseRef := do
  let kb := (← get).kb
  let concepts ← (kb.loadChildrenList platform (some map.id) conceptLinkName).mapM
    (Concept.ofMap platform)
  ThinkingUnderstanding.modifyPhrase res fun phrase => { phrase with concepts := concepts }
  let phrases ← (kb.childKeys platform (some map.id) phrasesLinkName).mapM fun child =>
    load (some map.id) child phrasesLinkName
  ThinkingUnderstanding.modifyPhrase res fun phrase => { phrase with phrases := phrases }
  return res

section Load

variable {platform : Platform} {load : Loader PhraseRef} {w : World} {parent : Option ℕ}
  {key linkType : String} {map : Node}

variable (load) in
theorem run_loadPhrase_of_missing (missing : w.kb.loadChild platform parent key linkType = none) :
    (AnnotatedPhrase.loadWith platform load parent key linkType).run w =
      .error (.unexpectedException (notLoaded key linkType "tu.model.knowledge.KBNodeId")) w := by
  simp only [AnnotatedPhrase.loadWith, EStateM.run_bind, EStateM.run_get, missing]
  rfl

variable (load) in
theorem run_loadPhrase_of_refused (found : w.kb.loadChild platform parent key linkType = some map)
    (refused : ¬ platform.acceptsURI (KnowledgeURI.ofMap platform map).format) :
    (AnnotatedPhrase.loadWith platform load parent key linkType).run w =
      .error (.uriSyntaxException (KnowledgeURI.ofMap platform map).format) w := by
  simp only [AnnotatedPhrase.loadWith, EStateM.run_bind, EStateM.run_get, found,
    KBMap.loadFromCache, if_neg refused]
  rfl

/-- A node that has been loaded is not loaded again. -/
theorem run_loadPhrase_of_cached (found : w.kb.loadChild platform parent key linkType = some map)
    (accepted : platform.acceptsURI (KnowledgeURI.ofMap platform map).format) {r : ResourceRef}
    (cached : w.id2object map.id = some r) :
    (AnnotatedPhrase.loadWith platform load parent key linkType).run w =
      match r with
      | .phrase p => .ok p w
      | _ => .error .classCastException w := by
  simp only [AnnotatedPhrase.loadWith, EStateM.run_bind, EStateM.run_get, found,
    KBMap.run_loadFromCache accepted, cached]
  cases r <;> rfl

theorem run_loadPhrase_of_new (found : w.kb.loadChild platform parent key linkType = some map)
    (accepted : platform.acceptsURI (KnowledgeURI.ofMap platform map).format)
    (new : w.id2object map.id = none) :
    (AnnotatedPhrase.loadWith platform load parent key linkType).run w =
      (AnnotatedPhrase.finish platform load w.heap.phrases.size map).run
        (w.beginPhrase platform map) := by
  have uri : (({ w.heap with
      uris := w.heap.uris.alloc (KnowledgeURI.ofMap platform map)
      phrases := w.heap.phrases.alloc
        { uri := w.heap.uris.size
          probability := .ofMap map
          text := map.properties.text.getD ""
          index := map.properties.index.getD "0.0" } } : Heap).phrase
            w.heap.phrases.size).uri = w.heap.uris.size :=
    congrArg AnnotatedPhrase.uri (Arena.get_alloc_size ..)
  simp only [AnnotatedPhrase.loadWith, EStateM.run_bind, EStateM.run_get, found,
    KBMap.run_loadFromCache accepted, new]
  change (AnnotatedPhrase.finish platform load w.heap.phrases.size map).run
    { w with
      heap := Heap.modifyURI _ (Heap.phrase _ w.heap.phrases.size).uri _
      id2object := _ } = _
  rw [uri]
  rfl

/-- The concepts are copied, and then the sub-phrases are loaded. -/
theorem run_finishPhrase (platform : Platform) (load : Loader PhraseRef) (res : PhraseRef)
    (map : Node) (w : World) :
    ∃ cs w₁, List.Forall₂ (Concept.MadeOf platform w₁)
        (w.kb.loadChildrenList platform (some map.id) conceptLinkName) cs ∧
      w.Adds 0 w₁ ∧ w₁.heap.phrases = w.heap.phrases ∧ w₁.id2object = w.id2object ∧
      (AnnotatedPhrase.finish platform load res map).run w =
        (do
          let phrases ← (w.kb.childKeys platform (some map.id) phrasesLinkName).mapM fun child =>
            load (some map.id) child phrasesLinkName
          ThinkingUnderstanding.modifyPhrase res fun phrase => { phrase with phrases := phrases }
          return res : KBProgram PhraseRef).run
          (w₁.modifyPhrase res fun phrase => { phrase with concepts := cs }) := by
  obtain ⟨cs, w₁, run, made, adds, phrases, objects⟩ := Concept.run_mapM_ofMap platform
    (w.kb.loadChildrenList platform (some map.id) conceptLinkName) w
  refine ⟨cs, w₁, made, adds, phrases, objects, ?_⟩
  simp only [AnnotatedPhrase.finish, EStateM.run_bind, EStateM.run_get, run]
  rfl

/-- The phrase of a node is made: the concepts are copied in the state `w₁`, and the
sub-phrases are loaded up to the state `w₂`. -/
structure PhraseMade (platform : Platform) (load : Loader PhraseRef) (w : World) (map : Node)
    (cs : List ConceptRef) (w₁ : World) (ps : List PhraseRef) (w₂ : World) : Prop where
  accepted : platform.acceptsURI (KnowledgeURI.ofMap platform map).format
  new : w.id2object map.id = none
  copies : List.Forall₂ (Concept.MadeOf platform w₁)
    (w.kb.loadChildrenList platform (some map.id) conceptLinkName) cs
  adds : (w.beginPhrase platform map).Adds 0 w₁
  phrases : w₁.heap.phrases = (w.beginPhrase platform map).heap.phrases
  objects : w₁.id2object = (w.beginPhrase platform map).id2object
  children : ((w.kb.childKeys platform (some map.id) phrasesLinkName).mapM fun child =>
    load (some map.id) child phrasesLinkName).run
      (w₁.modifyPhrase w.heap.phrases.size fun phrase => { phrase with concepts := cs }) = .ok ps w₂

/-- The state after the phrase has been made. -/
def World.finishPhrase (w w₂ : World) (ps : List PhraseRef) : World :=
  w₂.modifyPhrase w.heap.phrases.size fun phrase => { phrase with phrases := ps }

/-- A load that returns has found the phrase of a node, or has made it. -/
theorem phraseMade_of_run {p' : PhraseRef} {w' : World}
    (run : (AnnotatedPhrase.loadWith platform load parent key linkType).run w = .ok p' w') :
    ∃ map, w.kb.loadChild platform parent key linkType = some map ∧
      ((w.id2object map.id = some (.phrase p') ∧ w' = w) ∨
        ∃ cs w₁ ps w₂, PhraseMade platform load w map cs w₁ ps w₂ ∧ p' = w.heap.phrases.size ∧
          w' = w.finishPhrase w₂ ps) := by
  cases found : w.kb.loadChild platform parent key linkType with
  | none =>
    exact nomatch (run_loadPhrase_of_missing load found).symm.trans run
  | some map =>
    by_cases accepted : platform.acceptsURI (KnowledgeURI.ofMap platform map).format = true
    · -- the node has a phrase already, or one is made of it
      cases cached : w.id2object map.id with
      | some r =>
        rw [run_loadPhrase_of_cached found accepted cached] at run
        cases r with
        | phrase p =>
          cases run
          exact ⟨map, rfl, Or.inl ⟨cached, rfl⟩⟩
        | concept c => exact nomatch run
        | link l => exact nomatch run
        | network n => exact nomatch run
      | none =>
        obtain ⟨cs, w₁, copies, adds, phrases, objects, finish⟩ := run_finishPhrase platform load
          w.heap.phrases.size map (w.beginPhrase platform map)
        rw [run_loadPhrase_of_new found accepted cached, finish, run_bind_eq_ok_iff] at run
        obtain ⟨ps, w₂, children, ended⟩ := run
        cases ended
        exact ⟨map, rfl, Or.inr ⟨cs, w₁, ps, w₂,
          ⟨accepted, cached, copies, adds, phrases, objects, children⟩, rfl, rfl⟩⟩
    · exact nomatch (run_loadPhrase_of_refused load found accepted).symm.trans run

/-- The phrase of a node is made, when its sub-phrases can be loaded. -/
theorem exists_phraseMade (found : w.kb.loadChild platform parent key linkType = some map)
    (accepted : platform.acceptsURI (KnowledgeURI.ofMap platform map).format)
    (new : w.id2object map.id = none)
    (children : ∀ w₁ cs, (w.beginPhrase platform map).Adds 0 w₁ →
      w₁.heap.phrases = (w.beginPhrase platform map).heap.phrases →
      w₁.id2object = (w.beginPhrase platform map).id2object →
      ∃ ps w₂, ((w.kb.childKeys platform (some map.id) phrasesLinkName).mapM fun child =>
        load (some map.id) child phrasesLinkName).run
          (w₁.modifyPhrase w.heap.phrases.size fun phrase => { phrase with concepts := cs }) =
            .ok ps w₂) :
    ∃ cs w₁ ps w₂, PhraseMade platform load w map cs w₁ ps w₂ ∧
      (AnnotatedPhrase.loadWith platform load parent key linkType).run w =
        .ok w.heap.phrases.size (w.finishPhrase w₂ ps) := by
  obtain ⟨cs, w₁, copies, adds, phrases, objects, finish⟩ := run_finishPhrase platform load
    w.heap.phrases.size map (w.beginPhrase platform map)
  obtain ⟨ps, w₂, run⟩ := children w₁ cs adds phrases objects
  refine ⟨cs, w₁, ps, w₂, ⟨accepted, new, copies, adds, phrases, objects, run⟩, ?_⟩
  rw [run_loadPhrase_of_new found accepted new, finish]
  exact run_bind_eq_ok_iff.mpr ⟨ps, w₂, run, rfl⟩

end Load

/-! ### Loads create objects and change none -/

/-- The phrases that are registered have the numbers of their nodes as uids. -/
def World.Registered (w : World) : Prop :=
  ∀ id p, w.id2object id = some (.phrase p) → p < w.heap.phrases.size ∧
    (w.heap.phrase p).uri < w.heap.uris.size ∧ w.heap.uid (.phrase p) = toString id

/-- Nothing is registered in a fresh process. -/
theorem FreshProcess.registered {s w : World} (fresh : FreshProcess s w) : w.Registered := by
  intro id p found
  rw [fresh.empty id] at found
  cases found

theorem World.Registered.adds {w w' : World} (registered : w.Registered) (adds : w.Adds 0 w')
    (objects : w'.id2object = w.id2object) : w'.Registered := by
  intro id p found
  rw [objects] at found
  obtain ⟨inside, uri, uid⟩ := registered id p found
  refine ⟨inside.trans_le adds.size, ?_, ?_⟩
  · rw [adds.uri p inside]
    exact uri.trans_le adds.uris.size
  · rw [adds.uid_phrase inside uri, uid]

theorem World.phrase_modifyPhrase (w : World) (p q : PhraseRef) (f : AnnotatedPhrase → AnnotatedPhrase) :
    (w.modifyPhrase p f).heap.phrase q = if q = p then f (w.heap.phrase p) else w.heap.phrase q :=
  Arena.get_modify ..

/-- Assigning anything but its URI to a phrase changes no other one. -/
theorem World.adds_modifyPhrase (w : World) (p : PhraseRef) {f : AnnotatedPhrase → AnnotatedPhrase}
    (uri : ∀ phrase, (f phrase).uri = phrase.uri) : w.Adds (p + 1) (w.modifyPhrase p f) where
  kb := rfl
  uris := .refl _
  concepts := .refl _
  size := Arena.size_le_size_modify ..
  phrase q above _ := by
    rw [World.phrase_modifyPhrase, if_neg (Nat.ne_of_gt above)]
  uri q _ := by
    rw [World.phrase_modifyPhrase]
    split_ifs with here
    · rw [uri, here]
    · rfl

/-- A phrase that has been created since may be assigned to. -/
theorem World.Adds.modifyPhrase {w w' : World} (adds : w.Adds 0 w') {p : PhraseRef}
    (new : w.heap.phrases.size ≤ p) (f : AnnotatedPhrase → AnnotatedPhrase) :
    w.Adds 0 (w'.modifyPhrase p f) where
  kb := adds.kb
  uris := adds.uris
  concepts := adds.concepts
  size := adds.size.trans (Arena.size_le_size_modify ..)
  phrase q above present := by
    rw [World.phrase_modifyPhrase, if_neg (Nat.ne_of_lt (present.trans_le new))]
    exact adds.phrase q above present
  uri q present := by
    rw [World.phrase_modifyPhrase, if_neg (Nat.ne_of_lt (present.trans_le new))]
    exact adds.uri q present

/-- Assigning anything but its URI to a phrase. -/
theorem World.Registered.modifyPhrase {w : World} (registered : w.Registered) (p : PhraseRef)
    {f : AnnotatedPhrase → AnnotatedPhrase} (uri : ∀ phrase, (f phrase).uri = phrase.uri) :
    (w.modifyPhrase p f).Registered := by
  intro id q found
  obtain ⟨inside, within, uid⟩ := registered id q found
  have same : ((w.modifyPhrase p f).heap.phrase q).uri = (w.heap.phrase q).uri := by
    rw [World.phrase_modifyPhrase]
    split_ifs with here
    · rw [uri, here]
    · rfl
  refine ⟨inside.trans_le (Arena.size_le_size_modify ..), same ▸ within, ?_⟩
  rw [← uid]
  change ((w.modifyPhrase p f).heap.uri ((w.modifyPhrase p f).heap.phrase q).uri).uid = _
  rw [same]
  rfl

section Begin

variable (platform : Platform) (w : World) (map : Node)

theorem World.phrase_beginPhrase :
    (w.beginPhrase platform map).heap.phrase w.heap.phrases.size =
      { uri := w.heap.uris.size
        probability := .ofMap map
        text := map.properties.text.getD ""
        index := map.properties.index.getD "0.0" } := Arena.get_alloc_size ..

theorem World.size_beginPhrase :
    (w.beginPhrase platform map).heap.phrases.size = w.heap.phrases.size + 1 := Arena.size_alloc ..

theorem World.adds_beginPhrase : w.Adds 0 (w.beginPhrase platform map) where
  kb := rfl
  uris := (Arena.Extends.alloc w.heap.uris (KnowledgeURI.ofMap platform map)).modify le_rfl
    fun uri => { uri with uid := toString map.id }
  concepts := .refl _
  size := Arena.size_le_size_modify ..
  phrase _ _ present := Arena.get_alloc_of_lt _ present _
  uri _ present := congrArg AnnotatedPhrase.uri (Arena.get_alloc_of_lt _ present _)

theorem World.uri_beginPhrase : w.heap.uris.size < (w.beginPhrase platform map).heap.uris.size :=
  Nat.lt_of_lt_of_le (Nat.lt_of_lt_of_eq (Nat.lt_succ_self _) (Arena.size_alloc ..).symm)
    (Arena.size_le_size_modify ..)

theorem World.uid_beginPhrase :
    (w.beginPhrase platform map).heap.uid (.phrase w.heap.phrases.size) = toString map.id := by
  change ((w.beginPhrase platform map).heap.uri
    ((w.beginPhrase platform map).heap.phrase w.heap.phrases.size).uri).uid = _
  rw [World.phrase_beginPhrase]
  exact congrArg KnowledgeURI.uid (Arena.get_modify_self
    (w.heap.uris.alloc (KnowledgeURI.ofMap platform map)) w.heap.uris.size
    fun uri => { uri with uid := toString map.id })

theorem World.Registered.beginPhrase {w : World} (registered : w.Registered) :
    (w.beginPhrase platform map).Registered := by
  intro id p found
  by_cases same : id = map.id
  · subst same
    obtain rfl := ResourceRef.phrase.inj
      (Option.some.inj ((Function.update_self map.id _ w.id2object).symm.trans found))
    rw [w.size_beginPhrase, w.phrase_beginPhrase]
    exact ⟨Nat.lt_succ_self _, w.uri_beginPhrase platform map, w.uid_beginPhrase platform map⟩
  · have old : w.id2object id = some (.phrase p) :=
      (Function.update_of_ne same _ w.id2object).symm.trans found
    obtain ⟨inside, uri, uid⟩ := registered id p old
    have adds := w.adds_beginPhrase platform map
    refine ⟨inside.trans_le adds.size, ?_, ?_⟩
    · rw [adds.uri p inside]
      exact uri.trans_le adds.uris.size
    · rw [adds.uid_phrase inside uri, uid]

end Begin

end ThinkingUnderstanding
