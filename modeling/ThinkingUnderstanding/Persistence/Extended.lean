import ThinkingUnderstanding.Persistence.Load

/-!
# What a load leaves as it was

A load makes new objects, and registers them under nodes that had none. It assigns to no
object that was there before. This holds of every run, whether it returns or raises an
exception.

## Main definitions

* `Heap.Lacks` — an object that is not there yet
* `World.Extended` — objects have been made and registered, and none has been changed

## Main results

* `maintains_loadPhrase`, `maintains_loadConcept`, `maintains_loadNetwork` — a load extends the
  state in which it starts
-/

namespace ThinkingUnderstanding

open Math Semantics

variable {platform : Platform}

/-- The object is not there yet. -/
def Heap.Lacks (heap : Heap) : ResourceRef → Prop
  | .concept c => heap.concepts.size ≤ c
  | .phrase p => heap.phrases.size ≤ p
  | .link l => heap.links.size ≤ l
  | .network n => heap.networks.size ≤ n

/-- Objects have been made and registered, and none that was there has been changed. -/
structure World.Extended (w w' : World) : Prop where
  kb : w'.kb = w.kb
  uris : w.heap.uris.Extends w'.heap.uris
  concepts : w.heap.concepts.Extends w'.heap.concepts
  conceptLines : w.heap.conceptLines.Extends w'.heap.conceptLines
  phraseLines : w.heap.phraseLines.Extends w'.heap.phraseLines
  phrases : w.heap.phrases.Extends w'.heap.phrases
  links : w.heap.links.Extends w'.heap.links
  networks : w.heap.networks.Extends w'.heap.networks
  kept : ∀ id r, w.id2object id = some r → w'.id2object id = some r
  new : ∀ id r, w'.id2object id = some r → w.id2object id = some r ∨ w.heap.Lacks r

namespace World.Extended

variable {w₀ w w' w'' : World}

theorem refl (w : World) : w.Extended w :=
  ⟨rfl, .refl _, .refl _, .refl _, .refl _, .refl _, .refl _, .refl _, fun _ _ found => found,
    fun _ _ found => Or.inl found⟩

/-- What is lacking later was lacking before. -/
theorem lacks (extended : w.Extended w') {r : ResourceRef} (lacks : w'.heap.Lacks r) :
    w.heap.Lacks r := by
  cases r with
  | concept c => exact extended.concepts.size.trans lacks
  | phrase p => exact extended.phrases.size.trans lacks
  | link l => exact extended.links.size.trans lacks
  | network n => exact extended.networks.size.trans lacks

theorem trans (first : w.Extended w') (second : w'.Extended w'') : w.Extended w'' where
  kb := second.kb.trans first.kb
  uris := first.uris.trans second.uris
  concepts := first.concepts.trans second.concepts
  conceptLines := first.conceptLines.trans second.conceptLines
  phraseLines := first.phraseLines.trans second.phraseLines
  phrases := first.phrases.trans second.phrases
  links := first.links.trans second.links
  networks := first.networks.trans second.networks
  kept id r found := second.kept id r (first.kept id r found)
  new id r found := by
    rcases second.new id r found with old | lacking
    · exact first.new id r old
    · exact Or.inr (first.lacks lacking)

instance : IsPreorder World World.Extended where
  refl := refl
  trans _ _ _ := trans

/-- A new object is registered under a node that had none, and gets its number as uid. -/
theorem register (extended : w₀.Extended w) {r : ResourceRef} {id : ℕ} {u : UriRef}
    (absent : w₀.id2object id = none) (lacks : w₀.heap.Lacks r) (new : w₀.heap.uris.size ≤ u)
    (f : KnowledgeURI → KnowledgeURI) :
    w₀.Extended { w with
      heap := w.heap.modifyURI u f
      id2object := Function.update w.id2object id (some r) } :=
  { extended with
    uris := extended.uris.modify new f
    kept := by
      intro id' r' found
      have other : id' ≠ id := by
        intro same
        rw [same, absent] at found
        exact nomatch found
      exact (Function.update_of_ne other _ _).trans (extended.kept id' r' found)
    new := by
      intro id' r' found
      change Function.update w.id2object id (some r) id' = some r' at found
      by_cases here : id' = id
      · rw [here, Function.update_self, Option.some_inj] at found
        exact Or.inr (found ▸ lacks)
      · rw [Function.update_of_ne here] at found
        exact extended.new id' r' found }

section Steps

variable {α : Type} {Q : α → Prop}

theorem maintains_createURI (uri : KnowledgeURI) :
    Maintains w₀.Extended (createURI uri) fun _ => True :=
  fun _ extended => ⟨{ extended with uris := extended.uris.trans (.alloc _ _) }, fun _ _ _ => trivial⟩

theorem maintains_createRawURI (raw : String) :
    Maintains w₀.Extended (createRawURI raw) fun _ => True := by
  unfold createRawURI
  cases KnowledgeURI.ofRaw raw with
  | some uri => exact maintains_createURI uri
  | none => exact maintains_throw _

theorem maintains_createConceptLine (frames : InsertionMap UriRef ConceptRef) :
    Maintains w₀.Extended (createConceptLine frames) fun _ => True :=
  fun _ extended =>
    ⟨{ extended with conceptLines := extended.conceptLines.trans (.alloc _ _) }, fun _ _ _ => trivial⟩

theorem maintains_createPhraseLine (frames : InsertionMap UriRef PhraseRef) :
    Maintains w₀.Extended (createPhraseLine frames) fun _ => True :=
  fun _ extended =>
    ⟨{ extended with phraseLines := extended.phraseLines.trans (.alloc _ _) }, fun _ _ _ => trivial⟩

theorem maintains_createConcept (concept : Concept) :
    Maintains w₀.Extended (createConcept concept) fun _ => True :=
  fun _ extended =>
    ⟨{ extended with concepts := extended.concepts.trans (.alloc _ _) }, fun _ _ _ => trivial⟩

theorem maintains_createLink (link : ConceptLink) :
    Maintains w₀.Extended (createLink link) fun _ => True :=
  fun _ extended => ⟨{ extended with links := extended.links.trans (.alloc _ _) }, fun _ _ _ => trivial⟩

theorem maintains_modifyConcept {c : ConceptRef} (new : w₀.heap.concepts.size ≤ c)
    (f : Concept → Concept) : Maintains w₀.Extended (modifyConcept c f) fun _ => True :=
  maintains_modify fun _ extended => { extended with concepts := extended.concepts.modify new f }

theorem maintains_modifyPhrase {p : PhraseRef} (new : w₀.heap.phrases.size ≤ p)
    (f : AnnotatedPhrase → AnnotatedPhrase) :
    Maintains w₀.Extended (modifyPhrase p f) fun _ => True :=
  maintains_modify fun _ extended => { extended with phrases := extended.phrases.modify new f }

theorem maintains_modifyNetwork {n : NetworkRef} (new : w₀.heap.networks.size ≤ n)
    (f : ConceptNetwork → ConceptNetwork) :
    Maintains w₀.Extended (modifyNetwork n f) fun _ => True :=
  maintains_modify fun _ extended => { extended with networks := extended.networks.modify new f }

/-- A node that has no object now had none at first. -/
theorem maintains_loadFromCache (map : Node) :
    Maintains w₀.Extended (KBMap.loadFromCache platform map) fun found =>
      found = none → w₀.id2object map.id = none := by
  unfold KBMap.loadFromCache
  dsimp only
  split_ifs
  · refine maintains_get_bind fun w extended => maintains_pure fun absent => ?_
    by_contra present
    obtain ⟨r, found⟩ := Option.ne_none_iff_exists'.mp present
    rw [extended.kept _ r found] at absent
    exact nomatch absent
  · exact maintains_throw _

/-- A concept is made and registered under a node that had no object. -/
theorem maintains_registerConcept {id : ℕ} (absent : w₀.id2object id = none)
    {concept : UriRef → Concept} (own : ∀ u, (concept u).uri = u) (uri : KnowledgeURI)
    {rest : ConceptRef → KBProgram α}
    (continues : ∀ res, w₀.heap.concepts.size ≤ res → Maintains w₀.Extended (rest res) Q) :
    Maintains w₀.Extended (do
      let u ← createURI uri
      let res ← createConcept (concept u)
      KBMap.register (.concept res) id
      rest res) Q := by
  intro w extended
  let made : World := { w with heap := { w.heap with
    uris := w.heap.uris.alloc uri
    concepts := w.heap.concepts.alloc (concept w.heap.uris.size) } }
  have first : w₀.Extended made :=
    { extended with
      uris := extended.uris.trans (.alloc _ _)
      concepts := extended.concepts.trans (.alloc _ _) }
  have ref : made.heap.uriRef (.concept w.heap.concepts.size) = w.heap.uris.size :=
    (congrArg Concept.uri (Arena.get_alloc_size ..)).trans (own _)
  have lacks : w₀.heap.Lacks (.concept w.heap.concepts.size) := extended.concepts.size
  exact continues w.heap.concepts.size extended.concepts.size _
    (first.register absent lacks (extended.uris.size.trans_eq ref.symm) fun uri =>
      { uri with uid := toString id })

/-- A phrase is made and registered under a node that had no object. -/
theorem maintains_registerPhrase {id : ℕ} (absent : w₀.id2object id = none)
    {phrase : UriRef → AnnotatedPhrase} (own : ∀ u, (phrase u).uri = u) (uri : KnowledgeURI)
    {rest : PhraseRef → KBProgram α}
    (continues : ∀ res, w₀.heap.phrases.size ≤ res → Maintains w₀.Extended (rest res) Q) :
    Maintains w₀.Extended (do
      let u ← createURI uri
      let res ← createPhrase (phrase u)
      KBMap.register (.phrase res) id
      rest res) Q := by
  intro w extended
  let made : World := { w with heap := { w.heap with
    uris := w.heap.uris.alloc uri
    phrases := w.heap.phrases.alloc (phrase w.heap.uris.size) } }
  have first : w₀.Extended made :=
    { extended with
      uris := extended.uris.trans (.alloc _ _)
      phrases := extended.phrases.trans (.alloc _ _) }
  have ref : made.heap.uriRef (.phrase w.heap.phrases.size) = w.heap.uris.size :=
    (congrArg AnnotatedPhrase.uri (Arena.get_alloc_size ..)).trans (own _)
  have lacks : w₀.heap.Lacks (.phrase w.heap.phrases.size) := extended.phrases.size
  exact continues w.heap.phrases.size extended.phrases.size _
    (first.register absent lacks (extended.uris.size.trans_eq ref.symm) fun uri =>
      { uri with uid := toString id })

/-- A network is made and registered under a node that had no object. -/
theorem maintains_registerNetwork {id : ℕ} (absent : w₀.id2object id = none)
    {network : UriRef → ConceptNetwork} (own : ∀ u, (network u).uri = u) (uri : KnowledgeURI)
    {rest : NetworkRef → KBProgram α}
    (continues : ∀ res, w₀.heap.networks.size ≤ res → Maintains w₀.Extended (rest res) Q) :
    Maintains w₀.Extended (do
      let u ← createURI uri
      let res ← createNetwork (network u)
      KBMap.register (.network res) id
      rest res) Q := by
  intro w extended
  let made : World := { w with heap := { w.heap with
    uris := w.heap.uris.alloc uri
    networks := w.heap.networks.alloc (network w.heap.uris.size) } }
  have first : w₀.Extended made :=
    { extended with
      uris := extended.uris.trans (.alloc _ _)
      networks := extended.networks.trans (.alloc _ _) }
  have ref : made.heap.uriRef (.network w.heap.networks.size) = w.heap.uris.size :=
    (congrArg ConceptNetwork.uri (Arena.get_alloc_size ..)).trans (own _)
  have lacks : w₀.heap.Lacks (.network w.heap.networks.size) := extended.networks.size
  exact continues w.heap.networks.size extended.networks.size _
    (first.register absent lacks (extended.uris.size.trans_eq ref.symm) fun uri =>
      { uri with uid := toString id })

theorem maintains_conceptOfMap (map : Node) :
    Maintains w₀.Extended (Concept.ofMap platform map) fun _ => True := by
  refine (maintains_createConceptLine _).bind fun _ _ => ?_
  refine (maintains_createConceptLine _).bind fun _ _ => ?_
  refine (maintains_createPhraseLine _).bind fun _ _ => ?_
  refine (maintains_createURI _).bind fun _ _ => ?_
  exact maintains_createConcept _

theorem maintains_loadLinks (id : ℕ) (linkType : String) :
    Maintains w₀.Extended (loadLinks platform id linkType) fun _ => True := by
  refine maintains_get_bind fun w _ => Maintains.foldlM _ (fun uri _ acc _ => ?_) trivial
  split
  · refine (maintains_conceptOfMap _).bind fun source _ => ?_
    refine (maintains_conceptOfMap _).bind fun destination _ => ?_
    refine Maintains.bind (Q := fun _ => True) ?_ fun _ _ => maintains_pure trivial
    exact (maintains_createRawURI uri).bind fun _ _ => maintains_createLink _
  · exact maintains_throw _

/-- The calls of `load` for the children of a node. -/
theorem maintains_loadFrames {τ : Type} {load : Loader τ}
    (loaded : ∀ parent key linkType,
      Maintains w₀.Extended (load parent key linkType) fun _ => True)
    (id : ℕ) (linkType : String) :
    Maintains w₀.Extended (loadFrames platform load id linkType) fun _ => True := by
  refine maintains_get_bind fun w _ => Maintains.foldlM _ (fun uri _ acc _ => ?_) trivial
  refine (maintains_createRawURI uri).bind fun key _ => ?_
  exact (loaded (some id) uri linkType).bind fun _ _ => maintains_pure trivial

theorem maintains_loadPhrase (stack : ℕ) (parent : Option ℕ) (key linkType : String) :
    Maintains w₀.Extended (AnnotatedPhrase.load platform stack parent key linkType)
      fun _ => True := by
  induction stack generalizing parent key linkType with
  | zero => exact maintains_throw _
  | succ stack ih =>
    refine maintains_get_bind fun w _ => ?_
    dsimp only
    split
    · exact maintains_throw _
    · refine (maintains_loadFromCache _).bind fun found absent => ?_
      split
      · exact maintains_pure trivial
      · exact maintains_throw _
      · refine maintains_registerPhrase (absent rfl) (fun _ => rfl) _ fun res fresh => ?_
        refine maintains_get_bind fun w _ => ?_
        refine (Maintains.mapM (Q := fun _ => True) _ fun map _ =>
          maintains_conceptOfMap map).bind fun concepts _ => ?_
        refine (maintains_modifyPhrase fresh _).bind fun _ _ => ?_
        refine (Maintains.mapM (Q := fun _ => True) _ fun child _ =>
          ih _ child phrasesLinkName).bind fun phrases _ => ?_
        exact (maintains_modifyPhrase fresh _).bind fun _ _ => maintains_pure trivial

/-- A call of `Concept.load` where `null` is not expected. -/
theorem maintains_orNull {program : KBProgram (Option ConceptRef)}
    (loaded : Maintains w₀.Extended program fun _ => True) :
    Maintains w₀.Extended (do
      match ← program with
      | some c => return c
      | none => throw .nullPointerException : KBProgram ConceptRef) fun _ => True := by
  refine loaded.bind fun result _ => ?_
  cases result with
  | some c => exact maintains_pure trivial
  | none => exact maintains_throw _

theorem maintains_loadConcept (stack : ℕ) (parent : Option ℕ) (key linkType : String) :
    Maintains w₀.Extended (Concept.load platform stack parent key linkType) fun _ => True := by
  induction stack generalizing parent key linkType with
  | zero => exact maintains_throw _
  | succ stack ih =>
    refine maintains_get_bind fun w _ => ?_
    dsimp only
    split
    · exact maintains_pure trivial
    · refine (maintains_loadFromCache _).bind fun found absent => ?_
      split
      · exact maintains_pure trivial
      · exact maintains_throw _
      · refine maintains_registerConcept (absent rfl) (fun _ => rfl) _ fun res fresh => ?_
        have child parent key linkType := maintains_orNull (ih parent key linkType)
        refine (maintains_loadFrames child _ _).bind fun _ _ => ?_
        refine (maintains_createConceptLine _).bind fun _ _ => ?_
        refine (maintains_loadFrames child _ _).bind fun _ _ => ?_
        refine (maintains_createConceptLine _).bind fun _ _ => ?_
        refine (maintains_loadFrames (maintains_loadPhrase stack) _ _).bind fun _ _ => ?_
        refine (maintains_createPhraseLine _).bind fun _ _ => ?_
        refine (maintains_loadLinks _ _).bind fun _ _ => ?_
        exact (maintains_modifyConcept fresh _).bind fun _ _ => maintains_pure trivial

theorem maintains_loadAt (stack : ℕ) (selfMap : Node) :
    Maintains w₀.Extended (ConceptNetwork.loadAt platform stack selfMap) fun _ => True := by
  refine (maintains_loadFromCache _).bind fun found absent => ?_
  split
  · exact maintains_pure trivial
  · exact maintains_throw _
  · refine maintains_registerNetwork (absent rfl) (fun _ => rfl) _ fun res fresh => ?_
    refine (maintains_loadFrames (fun parent key linkType =>
      maintains_orNull (maintains_loadConcept stack parent key linkType)) _ _).bind fun _ _ => ?_
    refine (maintains_loadLinks _ _).bind fun conceptLinkList _ => ?_
    exact (maintains_modifyNetwork fresh _).bind fun _ _ => maintains_pure trivial

theorem maintains_loadNetwork (stack : ℕ) (parent : Option ℕ) (key linkType : String) :
    Maintains w₀.Extended (ConceptNetwork.load platform stack parent key linkType)
      fun _ => True := by
  rw [ConceptNetwork.load_eq]
  refine maintains_get_bind fun w _ => ?_
  split
  · exact maintains_throw _
  · exact maintains_loadAt stack _

end Steps

/-- What is left of the start by a program that has returned. -/
theorem of_run {α : Type} {program : KBProgram α} {Q : α → Prop} {a : α}
    (maintains : Maintains w.Extended program Q) (run : program.run w = .ok a w') :
    w.Extended w' := by
  have extended := (maintains w (refl w)).1
  rwa [run] at extended

end World.Extended

end ThinkingUnderstanding
