import ThinkingUnderstanding.Persistence.Narratives

/-!
# Saving a narrative

A sentence without phrases is stored below the narrative, unless the text of its URI was noted
before. Then it is linked to, which fails when it has not been saved: so the sentence has the
URI object of the narrative or of a sentence before it.

## Main definitions

* `Told` — a narrative and some of its sentences have been saved
* `ToldApart` — each of the sentences is a node of its own

## Main results

* `Told.run_sentences` — sentences with texts of their own are stored in order
* `Told.of_run_sentences` — what is known of sentences that have been saved
-/

namespace ThinkingUnderstanding

open Math Semantics

/-- The relationship by which the narrative is stored. -/
def AnnotatedNarrative.ownRelationship (s : World) (parent : Option ℕ) (key linkType : String) :
    Relationship :=
  ⟨s.kb.getNodeById parent, s.kb.upcoming 0, linkType, key⟩

/-! ### New nodes -/

namespace KB

variable (kb : KB) (properties : Properties) (parent : Option ℕ) (linkType key : String)

@[simp] theorem nodes_addChild : (kb.addChild properties parent linkType key).nodes =
    kb.nodes ++ [⟨kb.upcoming 0, properties⟩] := rfl

@[simp] theorem upcoming_addChild (i : ℕ) :
    (kb.addChild properties parent linkType key).upcoming i = kb.upcoming (i + 1) := rfl

theorem hasNode_addChild {id : ℕ} : (kb.addChild properties parent linkType key).HasNode id ↔
    kb.HasNode id ∨ id = kb.upcoming 0 := by
  unfold HasNode
  rw [nodes_addChild, List.map_append, List.mem_append, List.map_singleton, List.mem_singleton]

/-- A number still to come is that of no node. -/
theorem not_hasNode_upcoming (i : ℕ) : ¬ kb.HasNode (kb.upcoming i) := kb.upcoming_fresh i

theorem node_addChild_self :
    (kb.addChild properties parent linkType key).node (kb.upcoming 0) =
      ⟨kb.upcoming 0, properties⟩ := by
  have none : kb.nodes.find? (fun node => node.id = kb.upcoming 0) = none := by
    rw [List.find?_eq_none]
    intro node member
    have other : node.id ≠ kb.upcoming 0 := fun same =>
      kb.upcoming_fresh 0 (same ▸ List.mem_map_of_mem member)
    simpa using other
  rw [node, nodes_addChild, List.find?_append, none]
  simp

theorem node_addChild_of_ne {id : ℕ} (other : id ≠ kb.upcoming 0) :
    (kb.addChild properties parent linkType key).node id = kb.node id := by
  rw [node, nodes_addChild, List.find?_append, node]
  cases kb.nodes.find? fun node => node.id = id with
  | some node => rfl
  | none => simp [other.symm]

end KB

theorem Heap.exportedSentence_of_sameGraph {heap heap' : Heap} (same : heap.SameGraph heap')
    (x : AnnotatedSentence) : heap'.exportedSentence x = heap.exportedSentence x := by
  unfold exportedSentence
  rw [same.fields x.uri]
  rfl

theorem Heap.exportedNarrative_of_sameGraph {heap heap' : Heap} (same : heap.SameGraph heap')
    (n : AnnotatedNarrative) : heap'.exportedNarrative n = heap.exportedNarrative n := by
  unfold exportedNarrative
  rw [same.fields n.uri]
  rfl

/-- The narrative has been saved in the state `s`, and so have these sentences, each of them
by a relationship to the node with the number. -/
structure Told (platform : Platform) (s : World) (n : AnnotatedNarrative) (parent : Option ℕ)
    (key linkType : String) (told : List (AnnotatedSentence × ℕ)) (w : World) : Prop where
  graph : s.heap.SameGraph w.heap
  texts : ∀ u, w.textOf u = s.textOf u
  accepted : ∀ u, (w.heap.uri u).Accepted platform ↔ (s.heap.uri u).Accepted platform
  saved : ∀ text, text ∈ w.saved ↔
    text = s.textOf n.uri ∨ ∃ entry ∈ told, s.textOf entry.1.uri = text
  relationships : w.kb.relationships = s.kb.relationships ++
    AnnotatedNarrative.ownRelationship s parent key linkType ::
    told.map fun entry => ⟨s.kb.upcoming 0, entry.2, phrasesLinkName, s.textOf entry.1.uri⟩
  node : w.kb.node (s.kb.upcoming 0) = ⟨s.kb.upcoming 0, s.heap.exportedNarrative n⟩
  hasNode : w.kb.HasNode (s.kb.upcoming 0)
  older : ∀ id, s.kb.HasNode id → w.kb.HasNode id
  newer : ∀ entry ∈ told, w.kb.HasNode entry.2 ∧ ¬ s.kb.HasNode entry.2
  uid : w.uidOf n.uri = toString (s.kb.upcoming 0)
  uids : ∀ entry ∈ told, w.uidOf entry.1.uri = toString entry.2
  /-- A URI has the uid it had, unless it is that of the narrative or of a sentence. -/
  registered : ∀ u, w.uidOf u = s.uidOf u ∨ u = n.uri ∨ ∃ entry ∈ told, entry.1.uri = u

/-- Every sentence has been stored as a node of its own. -/
structure ToldApart (s : World) (told : List (AnnotatedSentence × ℕ)) (w : World) : Prop where
  upcoming : ∀ i, w.kb.upcoming i = s.kb.upcoming (told.length + 1 + i)
  nodes : ∀ entry ∈ told, w.kb.node entry.2 = ⟨entry.2, s.heap.exportedSentence entry.1⟩

section Steps

variable {platform : Platform} (stack : ℕ) {s w w' : World} {n : AnnotatedNarrative}
  {parent : Option ℕ} {key linkType : String} {told : List (AnnotatedSentence × ℕ)}
  {x : AnnotatedSentence} {u : UriRef}

theorem World.textOf_storeURI (w : World) (u v : UriRef) (exported : Heap → Properties)
    (parent : Option ℕ) (key linkType : String)
    (kept : (w.heap.uri u).cached = some (w.textOf u)) :
    (w.storeURI u exported parent key linkType).textOf v = w.textOf v := by
  unfold World.textOf World.storeURI
  rw [Heap.uri_modifyURI]
  split_ifs with same
  · rw [same, KnowledgeURI.text, KnowledgeURI.text, kept]
    rfl
  · rfl

theorem World.uidOf_storeURI (w : World) (u v : UriRef) (exported : Heap → Properties)
    (parent : Option ℕ) (key linkType : String) :
    (w.storeURI u exported parent key linkType).uidOf v =
      if v = u then toString (w.kb.upcoming 0) else w.uidOf v := by
  unfold World.uidOf World.storeURI
  rw [Heap.uri_modifyURI]
  split_ifs <;> rfl

namespace Told

/-- Asking for a text changes nothing here. -/
theorem asked (begun : Told platform s n parent key linkType told w)
    (accepted : (s.heap.uri u).Accepted platform) (asked : World.Asked u w w') :
    Told platform s n parent key linkType told w' where
  graph := begun.graph.trans asked.graph
  texts v := (asked.textOf v).trans (begun.texts v)
  accepted v := by
    by_cases same : v = u
    · rw [same]
      exact iff_of_true (asked.accepted ((begun.accepted u).mpr accepted)) accepted
    · rw [asked.others v same]
      exact begun.accepted v
  saved := asked.saved ▸ begun.saved
  relationships := asked.kb ▸ begun.relationships
  node := asked.kb ▸ begun.node
  hasNode := asked.kb ▸ begun.hasNode
  older := asked.kb ▸ begun.older
  newer := asked.kb ▸ begun.newer
  uid := (asked.uidOf _).trans begun.uid
  uids entry member := (asked.uidOf _).trans (begun.uids entry member)
  registered v := asked.uidOf v ▸ begun.registered v

/-- A sentence with a text that was not noted has an object of its own as its URI. -/
theorem ne_of_unknown (begun : Told platform s n parent key linkType told w)
    (unknown : s.textOf x.uri ∉ w.saved) :
    x.uri ≠ n.uri ∧ ∀ entry ∈ told, entry.1.uri ≠ x.uri := by
  rw [begun.saved, not_or, not_exists] at unknown
  refine ⟨fun same => unknown.1 (congrArg s.textOf same), fun entry member same => ?_⟩
  exact unknown.2 entry ⟨member, congrArg s.textOf same⟩

/-- A sentence is stored. -/
theorem stored (begun : Told platform s n parent key linkType told w)
    (accepted : (s.heap.uri x.uri).Accepted platform)
    (kept : (w.heap.uri x.uri).cached = some (w.textOf x.uri))
    (unknown : s.textOf x.uri ∉ w.saved) :
    Told platform s n parent key linkType (told ++ [(x, w.kb.upcoming 0)])
      (w.storeURI x.uri (fun heap => heap.exportedSentence x) (some (s.kb.upcoming 0))
        (s.textOf x.uri) phrasesLinkName) := by
  -- the number is new, and so is the URI among those that have been told
  obtain ⟨other, others⟩ := begun.ne_of_unknown unknown
  have fresh : ¬ w.kb.HasNode (w.kb.upcoming 0) := w.kb.not_hasNode_upcoming 0
  have start : s.kb.upcoming 0 ≠ w.kb.upcoming 0 := fun same => fresh (same ▸ begun.hasNode)
  have graph : w.heap.SameGraph (w.storeURI x.uri (fun heap => heap.exportedSentence x)
      (some (s.kb.upcoming 0)) (s.textOf x.uri) phrasesLinkName).heap :=
    Heap.sameGraph_modifyURI _ _ fun _ => rfl
  constructor
  case graph => exact begun.graph.trans graph
  case texts =>
    intro v
    rw [World.textOf_storeURI _ _ _ _ _ _ _ kept, begun.texts]
  case accepted =>
    intro v
    rw [World.storeURI, Heap.uri_modifyURI]
    split_ifs with same
    · rw [same]
      refine iff_of_true (fun none => ?_) accepted
      cases none.symm.trans kept
    · exact begun.accepted v
  case saved =>
    intro text
    change text ∈ w.saved ++ [w.textOf x.uri] ↔ _
    rw [List.mem_append, begun.saved, begun.texts, List.mem_singleton]
    simp only [List.mem_append, List.mem_singleton, or_and_right, exists_or, exists_eq_left]
    rw [or_assoc, eq_comm (a := text) (b := s.textOf x.uri)]
  case relationships =>
    change (w.kb.addChild _ _ _ _).relationships = _
    rw [KB.relationships_addChild, KB.getNodeById_of_hasNode begun.hasNode, begun.relationships]
    simp
  case node =>
    change (w.kb.addChild _ _ _ _).node _ = _
    rw [KB.node_addChild_of_ne _ _ _ _ _ start, begun.node]
  case hasNode => exact (KB.hasNode_addChild ..).mpr (Or.inl begun.hasNode)
  case older => exact fun id old => (KB.hasNode_addChild ..).mpr (Or.inl (begun.older id old))
  case newer =>
    intro entry member
    rcases List.mem_append.mp member with before | last
    · exact ⟨(KB.hasNode_addChild ..).mpr (Or.inl (begun.newer entry before).1),
        (begun.newer entry before).2⟩
    · rw [List.mem_singleton.mp last]
      exact ⟨(KB.hasNode_addChild ..).mpr (Or.inr rfl), fun old => fresh (begun.older _ old)⟩
  case uid => rw [World.uidOf_storeURI, if_neg other.symm, begun.uid]
  -- no other sentence of the narrative has this URI
  case uids =>
    intro entry member
    rw [World.uidOf_storeURI]
    rcases List.mem_append.mp member with before | last
    · rw [if_neg (others entry before), begun.uids entry before]
    · rw [List.mem_singleton.mp last, if_pos rfl]
  case registered =>
    intro v
    rw [World.uidOf_storeURI]
    split_ifs with same
    · exact Or.inr (Or.inr ⟨_, List.mem_append_right _ (List.mem_singleton.mpr rfl), same.symm⟩)
    · refine (begun.registered v).imp id (Or.imp id ?_)
      rintro ⟨entry, member, named⟩
      exact ⟨entry, List.mem_append_left _ member, named⟩

/-- A sentence is linked to. -/
theorem linked (begun : Told platform s n parent key linkType told w)
    (known : s.textOf x.uri ∈ w.saved) (child : {id // w.kb.HasNode id})
    (new : ¬ s.kb.HasNode child) (uid : w.uidOf x.uri = toString child.val) :
    Told platform s n parent key linkType (told ++ [(x, child.val)])
      { w with kb := w.kb.createRelationshipTo ⟨s.kb.upcoming 0, begun.hasNode⟩ child
                phrasesLinkName (s.textOf x.uri) } := by
  constructor
  case graph => exact begun.graph
  case texts => exact begun.texts
  case accepted => exact begun.accepted
  case saved =>
    intro text
    simp only [begun.saved, List.mem_append, List.mem_singleton, or_and_right, exists_or,
      exists_eq_left]
    constructor
    · exact Or.imp id Or.inl
    · -- the text of the sentence was in the list already
      rintro (own | told | rfl)
      · exact Or.inl own
      · exact Or.inr told
      · exact (begun.saved _).mp known
  case relationships =>
    rw [KB.relationships_createRelationshipTo, begun.relationships]
    simp
  case node => exact begun.node
  case hasNode => exact begun.hasNode
  case older => exact begun.older
  case newer =>
    intro entry member
    rcases List.mem_append.mp member with before | last
    · exact begun.newer entry before
    · rw [List.mem_singleton.mp last]
      exact ⟨child.2, new⟩
  case uid => exact begun.uid
  case uids =>
    intro entry member
    rcases List.mem_append.mp member with before | last
    · exact begun.uids entry before
    · rw [List.mem_singleton.mp last]
      exact uid
  case registered =>
    refine fun v => (begun.registered v).imp id (Or.imp id ?_)
    exact fun ⟨entry, member, named⟩ => ⟨entry, List.mem_append_left _ member, named⟩

end Told

/-- The key of a sentence is made twice, before its `save` and in it. -/
theorem Told.run_saveSentence (begun : Told platform s n parent key linkType told w)
    (accepted : (s.heap.uri x.uri).Accepted platform) :
    ∃ w', World.Asked x.uri w w' ∧ (AnnotatedNarrative.saveSentence platform stack n.uri x).run w =
      (x.save platform stack (some (s.kb.upcoming 0)) (s.textOf x.uri) phrasesLinkName).run w' := by
  obtain ⟨w', run, asked⟩ := run_uriText_of_accepted ((begun.accepted x.uri).mpr accepted)
  refine ⟨w', asked, ?_⟩
  have text : (w.heap.uri x.uri).text = s.textOf x.uri := begun.texts x.uri
  simp only [AnnotatedNarrative.saveSentence, EStateM.run_bind, KBMap.run_getURI begun.uid, run,
    text]

theorem Told.run_saveSentence_of_refused (begun : Told platform s n parent key linkType told w)
    (refused : ¬ (s.heap.uri x.uri).Accepted platform) :
    ∃ e, (AnnotatedNarrative.saveSentence platform stack n.uri x).run w = .error e w := by
  obtain ⟨e, run⟩ := run_uriText_of_not_accepted (mt (begun.accepted x.uri).mp refused)
  refine ⟨e, ?_⟩
  simp only [AnnotatedNarrative.saveSentence, EStateM.run_bind, KBMap.run_getURI begun.uid, run]

/-- A sentence without phrases, whose text is not noted, is stored as a node of its own. -/
theorem Told.run_saveSentence_of_unknown (begun : Told platform s n parent key linkType told w)
    (accepted : (s.heap.uri x.uri).Accepted platform) (phrases : x.phrases = [])
    (unknown : s.textOf x.uri ∉ w.saved) :
    ∃ w', (AnnotatedNarrative.saveSentence platform stack n.uri x).run w = .ok () w' ∧
      Told platform s n parent key linkType (told ++ [(x, w.kb.upcoming 0)]) w' ∧
      (ToldApart s told w → ToldApart s (told ++ [(x, w.kb.upcoming 0)]) w') := by
  -- the text is asked for twice, by the loop over the sentences and by the save
  obtain ⟨w₁, asked, run⟩ := begun.run_saveSentence stack accepted
  have begun₁ := begun.asked accepted asked
  have text : w₁.textOf x.uri = s.textOf x.uri := begun₁.texts x.uri
  have unknown₁ : w₁.textOf x.uri ∉ w₁.saved := by rwa [text, asked.saved]
  obtain ⟨w₂, asked₂, run₂⟩ := run_saveNarrated_of_unsaved
    (fun heap => heap.exportedSentence x) (x.savePhrases platform stack) (some (s.kb.upcoming 0))
    (s.textOf x.uri) phrasesLinkName ((begun₁.accepted x.uri).mpr accepted) unknown₁
  have begun₂ := begun₁.asked accepted asked₂
  have kb : w₂.kb = w.kb := asked₂.kb.trans asked.kb
  have kept : (w₂.heap.uri x.uri).cached = some (w₂.textOf x.uri) := by
    rw [asked₂.cached, asked₂.textOf]
  have stored := begun₂.stored accepted kept (by rwa [asked₂.saved, asked.saved])
  rw [kb] at stored
  refine ⟨_, ?_, stored, fun apart => ⟨fun i => ?_, fun entry member => ?_⟩⟩
  · rw [run, AnnotatedSentence.save, run₂, AnnotatedSentence.savePhrases, phrases]
    rfl
  · change w₂.kb.upcoming (i + 1) = _
    rw [kb, apart.upcoming, List.length_append, List.length_singleton]
    congr 1
    omega
  · change (w₂.kb.addChild _ _ _ _).node _ = _
    rcases List.mem_append.mp member with before | last
    · have other : entry.2 ≠ w₂.kb.upcoming 0 := fun same =>
        w₂.kb.not_hasNode_upcoming 0 (same ▸ (begun₂.newer entry before).1)
      rw [KB.node_addChild_of_ne _ _ _ _ _ other, kb, apart.nodes entry before]
    · rw [List.mem_singleton.mp last, ← kb, KB.node_addChild_self]
      congr 1
      exact Heap.exportedSentence_of_sameGraph begun₂.graph x

/-- A sentence whose text is noted, and which has not been saved before, has the URI object of
the narrative or of a sentence that has been saved. -/
theorem Told.of_run_saveSentence_of_known (begun : Told platform s n parent key linkType told w)
    (unsaved : s.uidOf x.uri = "") (accepted : (s.heap.uri x.uri).Accepted platform)
    (known : s.textOf x.uri ∈ w.saved)
    (run : (AnnotatedNarrative.saveSentence platform stack n.uri x).run w = .ok () w') :
    ∃ id, Told platform s n parent key linkType (told ++ [(x, id)]) w' ∧
      (id = s.kb.upcoming 0 ∨ ∃ entry ∈ told, entry.1.uri = x.uri ∧ id = entry.2) := by
  obtain ⟨w₁, asked, run₁⟩ := begun.run_saveSentence stack accepted
  have begun₁ := begun.asked accepted asked
  have known₁ : w₁.textOf x.uri ∈ w₁.saved := by rwa [begun₁.texts, asked.saved]
  obtain ⟨w₂, asked₂, run₂⟩ := run_saveNarrated_of_saved
    (fun heap => heap.exportedSentence x) (x.savePhrases platform stack) (some (s.kb.upcoming 0))
    (s.textOf x.uri) phrasesLinkName ((begun₁.accepted x.uri).mpr accepted) known₁
  have begun₂ := begun₁.asked accepted asked₂
  rw [run₁, AnnotatedSentence.save, run₂] at run
  -- the uid it is linked by
  have number : ∃ id, w₂.uidOf x.uri = toString id ∧ ∃ present : w₂.kb.HasNode id,
      ¬ s.kb.HasNode id ∧ (id = s.kb.upcoming 0 ∨ ∃ entry ∈ told, entry.1.uri = x.uri ∧ id = entry.2) := by
    rcases begun₂.registered x.uri with same | own | ⟨entry, member, same⟩
    · rw [EStateM.run_bind, KBMap.run_getURI_of_empty (same.trans unsaved)] at run
      simp only [N4JKB.createLink, EStateM.run_bind, EStateM.run_get, KB.findNode,
        dif_pos begun₂.hasNode] at run
      cases run
    · exact ⟨s.kb.upcoming 0, own ▸ begun₂.uid, begun₂.hasNode, s.kb.not_hasNode_upcoming 0,
        Or.inl rfl⟩
    · obtain ⟨present, new⟩ := begun₂.newer entry member
      exact ⟨entry.2, same ▸ begun₂.uids entry member, present, new, Or.inr ⟨entry, member, same, rfl⟩⟩
  obtain ⟨id, uid, present, new, which⟩ := number
  have linked := begun₂.linked (x := x) (by rwa [asked₂.saved, asked.saved]) ⟨id, present⟩ new uid
  rw [EStateM.run_bind, KBMap.run_getURI uid] at run
  simp only [N4JKB.createLink, EStateM.run_bind, EStateM.run_get, KB.findNode,
    dif_pos begun₂.hasNode, dif_pos present] at run
  cases run
  exact ⟨id, linked, which⟩

/-- The narrative is stored, and then its sentences are saved. -/
theorem run_saveAnew_narrative (platform : Platform) (stack : ℕ) (s : World) (n : AnnotatedNarrative)
    (parent : Option ℕ) (key linkType : String) (accepted : (s.heap.uri n.uri).Accepted platform) :
    ∃ w, Told platform s n parent key linkType [] w ∧ ToldApart s [] w ∧
      (n.saveAnew platform stack parent key linkType).run s =
        (forM n.sentences (AnnotatedNarrative.saveSentence platform stack n.uri)).run w := by
  obtain ⟨s₁, asked, run⟩ := run_saveNarrated_of_unsaved (s := { s with saved := [] }) (u := n.uri)
    (fun heap => heap.exportedNarrative n)
    (forM n.sentences (AnnotatedNarrative.saveSentence platform stack n.uri)) parent key linkType
    accepted List.not_mem_nil
  -- asking whether the narrative is saved has cached the text of its URI
  have kept : (s₁.heap.uri n.uri).cached = some (s₁.textOf n.uri) := by
    rw [asked.cached, asked.textOf]
  have kb : s₁.kb = s.kb := asked.kb
  refine ⟨s₁.storeURI n.uri (fun heap => heap.exportedNarrative n) parent key linkType,
    ?told, ?apart, ?run⟩
  case run =>
    rw [AnnotatedNarrative.saveAnew, EStateM.run_bind, EStateM.run_modify]
    exact run
  case apart =>
    constructor
    · intro i
      change s₁.kb.upcoming (i + 1) = _
      rw [kb, List.length_nil]
      congr 1
      omega
    · exact List.forall_mem_nil _
  -- no sentence has been told: the graph is the old one with one node more
  case told =>
    constructor
    case graph =>
      exact asked.graph.trans (Heap.sameGraph_modifyURI _ _ fun _ => rfl)
    case texts =>
      intro u
      rw [World.textOf_storeURI _ _ _ _ _ _ _ kept, asked.textOf]
      rfl
    case accepted =>
      intro u
      rw [World.storeURI, Heap.uri_modifyURI]
      split_ifs with same
      · rw [same]
        refine iff_of_true (fun none => ?_) accepted
        cases none.symm.trans kept
      · rw [asked.others u same]
    case saved =>
      intro text
      change text ∈ s₁.saved ++ [s₁.textOf n.uri] ↔ _
      rw [asked.saved, asked.textOf]
      simp [World.textOf]
    case relationships =>
      change (s₁.kb.addChild _ _ _ _).relationships = _
      rw [kb, KB.relationships_addChild]
      rfl
    case node =>
      change (s₁.kb.addChild _ _ _ _).node _ = _
      rw [kb, KB.node_addChild_self]
      exact congrArg (Node.mk _) (Heap.exportedNarrative_of_sameGraph asked.graph n)
    case hasNode =>
      change (s₁.kb.addChild _ _ _ _).HasNode _
      rw [kb]
      exact (KB.hasNode_addChild ..).mpr (Or.inr rfl)
    case older =>
      intro id old
      change (s₁.kb.addChild _ _ _ _).HasNode _
      rw [kb]
      exact (KB.hasNode_addChild ..).mpr (Or.inl old)
    case newer => exact List.forall_mem_nil _
    case uid => rw [World.uidOf_storeURI, if_pos rfl, kb]
    case uids => exact List.forall_mem_nil _
    case registered =>
      intro u
      rw [World.uidOf_storeURI, asked.uidOf]
      split_ifs with same
      · exact Or.inr (Or.inl same)
      · exact Or.inl rfl

theorem run_saveAnew_narrative_of_refused {platform : Platform} {s : World}
    {n : AnnotatedNarrative} (stack : ℕ) (parent : Option ℕ) (key linkType : String)
    (refused : ¬ (s.heap.uri n.uri).Accepted platform) :
    ∃ e t, (n.saveAnew platform stack parent key linkType).run s = .error e t := by
  obtain ⟨e, run⟩ := run_saveNarrated_of_refused (s := { s with saved := [] }) (u := n.uri)
    (fun heap => heap.exportedNarrative n)
    (forM n.sentences (AnnotatedNarrative.saveSentence platform stack n.uri)) parent key linkType
    refused
  refine ⟨e, { s with saved := [] }, ?_⟩
  rw [AnnotatedNarrative.saveAnew, EStateM.run_bind, EStateM.run_modify]
  exact run

/-- Sentences that have been stored in order, as nodes of their own. -/
def AnnotatedNarrative.numbered (s : World) (sentences : List AnnotatedSentence) :
    List (AnnotatedSentence × ℕ) :=
  sentences.mapIdx fun i x => (x, s.kb.upcoming (i + 1))

/-- Sentences without phrases and with texts of their own are stored in order. -/
theorem Told.run_sentences {rest : List AnnotatedSentence}
    (phrases : ∀ x ∈ rest, x.phrases = [])
    (accepted : ∀ x ∈ rest, (s.heap.uri x.uri).Accepted platform) (done : List AnnotatedSentence)
    (apart : (s.textOf n.uri :: (done ++ rest).map fun x => s.textOf x.uri).Nodup)
    (begun : Told platform s n parent key linkType (AnnotatedNarrative.numbered s done) w)
    (each : ToldApart s (AnnotatedNarrative.numbered s done) w) :
    ∃ t, (forM rest (AnnotatedNarrative.saveSentence platform stack n.uri)).run w = .ok () t ∧
      Told platform s n parent key linkType (AnnotatedNarrative.numbered s (done ++ rest)) t ∧
      ToldApart s (AnnotatedNarrative.numbered s (done ++ rest)) t := by
  induction rest generalizing done w with
  | nil =>
    rw [List.append_nil]
    exact ⟨w, rfl, begun, each⟩
  | cons x rest ih =>
    rw [List.forall_mem_cons] at phrases accepted
    -- the texts are all different, so that of the next sentence is not in the list
    have unknown : s.textOf x.uri ∉ w.saved := by
      rw [begun.saved]
      rw [List.nodup_cons, List.map_append, List.map_cons, List.nodup_append] at apart
      rintro (own | ⟨entry, member, same⟩)
      · exact apart.1 (by simp [← own])
      · obtain ⟨i, inside, rfl⟩ := List.mem_mapIdx.mp member
        exact apart.2.2.2 _ (List.mem_map_of_mem (List.getElem_mem inside)) _ List.mem_cons_self same
    obtain ⟨w', run, begun', each'⟩ :=
      begun.run_saveSentence_of_unknown stack accepted.1 phrases.1 unknown
    -- the sentences that are told get the numbers in their order
    have next : AnnotatedNarrative.numbered s done ++ [(x, w.kb.upcoming 0)] =
        AnnotatedNarrative.numbered s (done ++ [x]) := by
      rw [each.upcoming, AnnotatedNarrative.numbered, AnnotatedNarrative.numbered,
        List.mapIdx_append, List.length_mapIdx]
      simp
    rw [next] at begun' each'
    rw [List.append_cons] at apart ⊢
    obtain ⟨t, later, ended⟩ := ih phrases.2 accepted.2 (done ++ [x]) apart begun' (each' each)
    refine ⟨t, ?_, ended⟩
    rw [List.forM_cons, EStateM.run_bind, run]
    exact later

/-- A sentence with the text of the narrative is not stored: it is linked to the narrative. -/
def Told.Shared (s : World) (n : AnnotatedNarrative) (told : List (AnnotatedSentence × ℕ)) : Prop :=
  ∀ entry ∈ told, s.textOf entry.1.uri = s.textOf n.uri → entry.2 = s.kb.upcoming 0

/-- What is known when sentences without phrases, none of which has been saved before, are saved. -/
theorem Told.of_run_sentences {rest : List AnnotatedSentence}
    (phrases : ∀ x ∈ rest, x.phrases = []) (unsaved : ∀ x ∈ rest, s.uidOf x.uri = "")
    (begun : Told platform s n parent key linkType told w) (shared : Told.Shared s n told)
    (run : (forM rest (AnnotatedNarrative.saveSentence platform stack n.uri)).run w = .ok () w') :
    (∀ x ∈ rest, (s.heap.uri x.uri).Accepted platform) ∧
      ∃ told', told'.map Prod.fst = told.map Prod.fst ++ rest ∧
        Told platform s n parent key linkType told' w' ∧ Told.Shared s n told' := by
  induction rest generalizing told w with
  | nil =>
    cases run
    exact ⟨List.forall_mem_nil _, told, (List.append_nil _).symm, begun, shared⟩
  | cons x rest ih =>
    rw [List.forall_mem_cons] at phrases unsaved
    rw [List.forM_cons, run_bind_eq_ok_iff] at run
    obtain ⟨_, w₁, first, later⟩ := run
    -- a run that has ended has not met a URI that is refused
    have accepted : (s.heap.uri x.uri).Accepted platform := by
      by_contra refused
      obtain ⟨e, failed⟩ := begun.run_saveSentence_of_refused stack refused
      exact nomatch failed.symm.trans first
    -- a sentence whose text is known is linked to, any other one is stored
    have step : ∃ id, Told platform s n parent key linkType (told ++ [(x, id)]) w₁ ∧
        (s.textOf x.uri = s.textOf n.uri → id = s.kb.upcoming 0) := by
      by_cases known : s.textOf x.uri ∈ w.saved
      · obtain ⟨id, begun', which⟩ := begun.of_run_saveSentence_of_known stack unsaved.1 accepted known first
        refine ⟨id, begun', fun text => ?_⟩
        rcases which with own | ⟨entry, member, same, rfl⟩
        · exact own
        · exact shared entry member (same ▸ text)
      · obtain ⟨w₂, run, begun', -⟩ :=
          begun.run_saveSentence_of_unknown stack accepted phrases.1 known
        obtain ⟨rfl, rfl⟩ := EStateM.Result.ok.inj (run.symm.trans first)
        exact ⟨_, begun', fun text => absurd ((begun.saved _).mpr (Or.inl text)) known⟩
    obtain ⟨id, begun', text⟩ := step
    have shared' : Told.Shared s n (told ++ [(x, id)]) := by
      intro entry member
      rcases List.mem_append.mp member with before | last
      · exact shared entry before
      · rw [List.mem_singleton.mp last]
        exact text
    obtain ⟨others, told', sentences, ended⟩ := ih phrases.2 unsaved.2 begun' shared' later
    refine ⟨List.forall_mem_cons.mpr ⟨accepted, others⟩, told', ?_, ended⟩
    rw [sentences, List.map_append]
    simp

end Steps

end ThinkingUnderstanding
