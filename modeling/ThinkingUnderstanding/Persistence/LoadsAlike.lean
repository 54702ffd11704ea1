import ThinkingUnderstanding.Persistence.ConceptIdentity
import ThinkingUnderstanding.Semantics.Commuting

/-!
# Loads from a knowledge base that has grown

A load follows relationships from node to node, and never leaves the nodes that were there with
the one it starts from, unless relationships were added to these. So a knowledge base in which
these nodes are as they were, with the relationships of the types that loads read, is
loaded from like the smaller one, up to the knowledge base itself.

## Main definitions

* `KB.ReadsAs` — the nodes of the second knowledge base are read in the first one alike

## Main results

* `exchanged_loadConcept`, `exchanged_loadAt`, `exchanged_loadNetwork` — a load does not see that
  the knowledge base has been exchanged
-/

namespace ThinkingUnderstanding

open Math Semantics

/-- The types of relationships that the loads of concepts, phrases and networks read. -/
def readTypes : List String :=
  [generalisationLinkName, specialisationLinkName, phrasesLinkName, conceptLinkName,
    conceptLinkSourceName, nodesLinkName, linksLinkName]

/-- The nodes of the second knowledge base are in the first one too, and related there alike by the
types. -/
structure KB.ReadsAs (kb' kb : KB) (types : List String) : Prop where
  hasNode : ∀ id, kb.HasNode id → kb'.HasNode id
  node : ∀ id, kb.HasNode id → kb'.node id = kb.node id
  relationshipsOf : ∀ id type, kb.HasNode id → type ∈ types →
    kb'.relationshipsOf id type = kb.relationshipsOf id type

/-- The state with another knowledge base. -/
def World.withKB (kb : KB) (w : World) : World := { w with kb }

/-- The ends of the relationships of a node are nodes. -/
theorem KB.hasNode_endNode {kb : KB} {platform : Platform} {id : ℕ} {linkType : String}
    {rel : Relationship} (member : rel ∈ platform.order (kb.relationshipsOf id linkType)) :
    kb.HasNode rel.endNode := by
  rw [(platform.order_perm _).mem_iff, mem_relationshipsOf] at member
  exact (kb.joined rel member.1).2

namespace KB.ReadsAs

theorem refl (kb : KB) (types : List String) : kb.ReadsAs kb types :=
  ⟨fun _ present => present, fun _ _ => rfl, fun _ _ _ _ => rfl⟩

theorem trans {kb kb' kb'' : KB} {types : List String} (later : kb''.ReadsAs kb' types)
    (first : kb'.ReadsAs kb types) : kb''.ReadsAs kb types where
  hasNode id present := later.hasNode id (first.hasNode id present)
  node id present := (later.node id (first.hasNode id present)).trans (first.node id present)
  relationshipsOf id type present member :=
    (later.relationshipsOf id type (first.hasNode id present) member).trans
      (first.relationshipsOf id type present member)

variable {kb kb' : KB} {types : List String} {id : ℕ} {linkType : String}
  (alike : kb'.ReadsAs kb types) (platform : Platform) (present : kb.HasNode id)
  (reads : linkType ∈ types)

include alike present

theorem getNodeById : (kb'.getNodeById (some id) : ℕ) = id := by
  rw [getNodeById_of_hasNode (alike.hasNode id present)]

include reads

theorem loadChild (key : String) :
    kb'.loadChild platform (some id) key linkType =
      kb.loadChild platform (some id) key linkType := by
  rw [KB.loadChild, KB.loadChild, alike.getNodeById present, getNodeById_of_hasNode present,
    alike.relationshipsOf id linkType present reads]
  cases found : (platform.order (kb.relationshipsOf id linkType)).find?
      fun rel => rel.key = key with
  | none => rfl
  | some rel =>
    exact congrArg some (alike.node _ (hasNode_endNode (List.mem_of_find?_eq_some found)))

theorem loadChildrenMap :
    kb'.loadChildrenMap platform (some id) linkType =
      kb.loadChildrenMap platform (some id) linkType := by
  rw [KB.loadChildrenMap, KB.loadChildrenMap, alike.getNodeById present,
    getNodeById_of_hasNode present, alike.relationshipsOf id linkType present reads]
  refine congrArg InsertionMap.ofList (List.map_congr_left fun rel member => ?_)
  exact congrArg (Prod.mk rel.key)
    (alike.node _ (hasNode_endNode (List.mem_of_mem_filter member)))

theorem childKeys :
    kb'.childKeys platform (some id) linkType = kb.childKeys platform (some id) linkType := by
  rw [KB.childKeys, KB.childKeys, alike.loadChildrenMap platform present reads]

theorem loadChildrenList :
    kb'.loadChildrenList platform (some id) linkType =
      kb.loadChildrenList platform (some id) linkType := by
  rw [KB.loadChildrenList, KB.loadChildrenList, alike.loadChildrenMap platform present reads,
    alike.childKeys platform present reads]

end KB.ReadsAs

section Loads

variable {kb kb' : KB} {types : List String} (alike : kb'.ReadsAs kb types)
  (reads : readTypes ⊆ types) {platform : Platform}

/-- A program that runs alike with either knowledge base. -/
abbrev Exchanged {α : Type} (kb kb' : KB) (p : KBProgram α) : Prop :=
  Commutes (fun w => w.kb = kb) (World.withKB kb') p

/-- A load that runs alike from the nodes of the smaller knowledge base. -/
def ExchangedLoads {τ : Type} (kb kb' : KB) (types : List String) (load : Loader τ) : Prop :=
  ∀ id key linkType, kb.HasNode id → linkType ∈ types →
    Exchanged kb kb' (load (some id) key linkType)

/-! ### Objects -/

theorem exchanged_createURI (uri : KnowledgeURI) : Exchanged kb kb' (createURI uri) :=
  .modifyGet (fun _ same => same) fun _ _ => rfl

theorem exchanged_createRawURI (raw : String) : Exchanged kb kb' (createRawURI raw) := by
  unfold createRawURI
  cases KnowledgeURI.ofRaw raw with
  | some uri => exact exchanged_createURI uri
  | none => exact .throw _

theorem exchanged_createConceptLine (frames : InsertionMap UriRef ConceptRef) :
    Exchanged kb kb' (createConceptLine frames) :=
  .modifyGet (fun _ same => same) fun _ _ => rfl

theorem exchanged_createPhraseLine (frames : InsertionMap UriRef PhraseRef) :
    Exchanged kb kb' (createPhraseLine frames) :=
  .modifyGet (fun _ same => same) fun _ _ => rfl

theorem exchanged_createConcept (concept : Concept) : Exchanged kb kb' (createConcept concept) :=
  .modifyGet (fun _ same => same) fun _ _ => rfl

theorem exchanged_createLink (link : ConceptLink) : Exchanged kb kb' (createLink link) :=
  .modifyGet (fun _ same => same) fun _ _ => rfl

theorem exchanged_createPhrase (phrase : AnnotatedPhrase) :
    Exchanged kb kb' (createPhrase phrase) :=
  .modifyGet (fun _ same => same) fun _ _ => rfl

theorem exchanged_createNetwork (network : ConceptNetwork) :
    Exchanged kb kb' (createNetwork network) :=
  .modifyGet (fun _ same => same) fun _ _ => rfl

theorem exchanged_modifyConcept (c : ConceptRef) (f : Concept → Concept) :
    Exchanged kb kb' (modifyConcept c f) :=
  .modifyGet (fun _ same => same) fun _ _ => rfl

theorem exchanged_modifyPhrase (p : PhraseRef) (f : AnnotatedPhrase → AnnotatedPhrase) :
    Exchanged kb kb' (modifyPhrase p f) :=
  .modifyGet (fun _ same => same) fun _ _ => rfl

theorem exchanged_modifyNetwork (n : NetworkRef) (f : ConceptNetwork → ConceptNetwork) :
    Exchanged kb kb' (modifyNetwork n f) :=
  .modifyGet (fun _ same => same) fun _ _ => rfl

theorem exchanged_register (r : ResourceRef) (id : ℕ) : Exchanged kb kb' (KBMap.register r id) :=
  .modifyGet (fun _ same => same) fun _ _ => rfl

theorem exchanged_loadFromCache (map : Node) :
    Exchanged kb kb' (KBMap.loadFromCache platform map) := by
  unfold KBMap.loadFromCache
  dsimp only
  split_ifs
  · exact .get_bind (fun _ _ => rfl) fun _ _ => .pure _
  · exact .throw _

theorem exchanged_ofMap (map : Node) : Exchanged kb kb' (Concept.ofMap platform map) := by
  refine (exchanged_createConceptLine _).bind fun generalisations => ?_
  refine (exchanged_createConceptLine _).bind fun specialisations => ?_
  refine (exchanged_createPhraseLine _).bind fun phrases => ?_
  exact (exchanged_createURI _).bind fun uri => exchanged_createConcept _

/-! ### Loops -/

include alike

theorem exchanged_loadFrames {τ : Type} {load : Loader τ} (loads : ExchangedLoads kb kb' types load)
    {id : ℕ} (present : kb.HasNode id) {linkType : String} (member : linkType ∈ types) :
    Exchanged kb kb' (loadFrames platform load id linkType) := by
  refine .get_bind (fun w same => ?_) fun w same => .foldlM _ (fun acc uri _ => ?_) _
  · change (kb'.childKeys platform (some id) linkType).foldlM _ _ = _
    rw [alike.childKeys platform present member, same]
  · refine (exchanged_createRawURI uri).bind fun key => ?_
    exact (loads id uri linkType present member).bind fun x => .pure _

theorem exchanged_loadLinks {id : ℕ} (present : kb.HasNode id) {linkType : String}
    (member : linkType ∈ types) : Exchanged kb kb' (loadLinks platform id linkType) := by
  refine .get_bind (fun w same => ?_) fun w same => .foldlM _ (fun acc uri _ => ?_) _
  · change (kb'.childKeys platform (some id) linkType).foldlM
      (loadLink platform (kb'.loadChildrenMap platform (some id) linkType)) [] = _
    rw [alike.childKeys platform present member, alike.loadChildrenMap platform present member,
      same]
    rfl
  · split
    · refine (exchanged_ofMap _).bind fun source => (exchanged_ofMap _).bind fun destination => ?_
      refine Commutes.bind ?_ fun link => .pure _
      exact (exchanged_createRawURI uri).bind fun u => exchanged_createLink _
    · exact .throw _

/-! ### Loads -/

theorem loadChild_withKB {w : World} (same : w.kb = kb) {id : ℕ} (present : kb.HasNode id)
    (key : String) {linkType : String} (member : linkType ∈ types) :
    (w.withKB kb').kb.loadChild platform (some id) key linkType =
      w.kb.loadChild platform (some id) key linkType := by
  rw [same]
  exact alike.loadChild platform present member key

include reads

theorem exchanged_loadPhrase (stack : ℕ) :
    ExchangedLoads kb kb' types (AnnotatedPhrase.load platform stack) := by
  induction stack with
  | zero => exact fun _ _ _ _ _ => .throw _
  | succ stack ih =>
    intro id key linkType present member
    have phrases : phrasesLinkName ∈ types := reads (by decide)
    have concepts : conceptLinkName ∈ types := reads (by decide)
    refine .get_bind (fun w same => ?_) fun w same => ?_
    · rw [loadChild_withKB alike same present key member]
    rw [same]
    cases found : kb.loadChild platform (some id) key linkType with
    | none => exact .throw _
    | some map =>
      have there := KB.hasNode_of_loadChild found
      refine (exchanged_loadFromCache map).bind fun cached => ?_
      split
      · exact .pure _
      · exact .throw _
      · refine (exchanged_createURI _).bind fun uri => (exchanged_createPhrase _).bind fun res => ?_
        refine (exchanged_register _ _).bind fun _ => .get_bind (fun w same => ?_) fun w same => ?_
        · change ((kb'.loadChildrenList platform _ _).mapM _ >>= fun _ => _) = _
          rw [alike.loadChildrenList platform there concepts, same]
          change (_ >>= fun _ => _ >>= fun _ =>
            (kb'.childKeys platform _ _).mapM _ >>= fun _ => _) = _
          rw [alike.childKeys platform there phrases]
        · refine (Commutes.mapM _ fun m _ => exchanged_ofMap m).bind fun cs => ?_
          refine (exchanged_modifyPhrase _ _).bind fun _ => ?_
          refine (Commutes.mapM _ fun child _ => ih _ _ _ there phrases).bind fun ps => ?_
          exact (exchanged_modifyPhrase _ _).bind fun _ => .pure _

theorem exchanged_loadConcept (stack : ℕ) :
    ExchangedLoads kb kb' types (Loader.orNull (Concept.load platform stack)) := by
  induction stack with
  | zero => exact fun _ _ _ _ _ => .throw _
  | succ stack ih =>
    intro id key linkType present member
    refine Commutes.bind (.get_bind (fun w same => ?_) fun w same => ?_) fun result => ?_
    · rw [loadChild_withKB alike same present key member]
    · rw [same]
      cases found : kb.loadChild platform (some id) key linkType with
      | none => exact .pure _
      | some map =>
        have there := KB.hasNode_of_loadChild found
        have frames {τ : Type} {load : Loader τ} (loads : ExchangedLoads kb kb' types load)
            {linkType : String} (member : linkType ∈ readTypes) :
            Exchanged kb kb' (loadFrames platform load map.id linkType) :=
          exchanged_loadFrames alike loads there (reads member)
        refine (exchanged_loadFromCache map).bind fun cached => ?_
        split
        · exact .pure _
        · exact .throw _
        · refine (exchanged_createURI _).bind fun uri => ?_
          refine (exchanged_createConcept _).bind fun res => ?_
          refine (exchanged_register _ _).bind fun _ => (frames ih (by decide)).bind fun _ => ?_
          refine (exchanged_createConceptLine _).bind fun _ => ?_
          refine (frames ih (by decide)).bind fun _ => ?_
          refine (exchanged_createConceptLine _).bind fun _ => ?_
          refine (frames (exchanged_loadPhrase alike reads stack) (by decide)).bind fun _ => ?_
          refine (exchanged_createPhraseLine _).bind fun _ => ?_
          refine (exchanged_loadLinks alike there (reads (by decide))).bind fun _ => ?_
          exact (exchanged_modifyConcept _ _).bind fun _ => .pure _
    · cases result with
      | some c => exact .pure _
      | none => exact .throw _

/-- A network is made of its node alike. -/
theorem exchanged_loadAt (stack : ℕ) {map : Node} (present : kb.HasNode map.id) :
    Exchanged kb kb' (ConceptNetwork.loadAt platform stack map) := by
  refine (exchanged_loadFromCache map).bind fun cached => ?_
  split
  · exact .pure _
  · exact .throw _
  · refine (exchanged_createURI _).bind fun uri => (exchanged_createNetwork _).bind fun res => ?_
    refine (exchanged_register _ _).bind fun _ => ?_
    refine (exchanged_loadFrames alike (exchanged_loadConcept alike reads stack) present
      (reads (by decide))).bind fun _ => ?_
    refine (exchanged_loadLinks alike present (reads (by decide))).bind fun _ => ?_
    exact (exchanged_modifyNetwork _ _).bind fun _ => .pure _

/-- A network is loaded alike. -/
theorem exchanged_loadNetwork (stack : ℕ) :
    ExchangedLoads kb kb' types (ConceptNetwork.load platform stack) := by
  intro id key linkType present member
  rw [ConceptNetwork.load_eq]
  refine .get_bind (fun w same => ?_) fun w same => ?_
  · rw [loadChild_withKB alike same present key member]
  rw [same]
  cases found : kb.loadChild platform (some id) key linkType with
  | none => exact .throw _
  | some map => exact exchanged_loadAt alike reads stack (KB.hasNode_of_loadChild found)

end Loads

end ThinkingUnderstanding
