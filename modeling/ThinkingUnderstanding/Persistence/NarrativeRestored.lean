import ThinkingUnderstanding.Math.RelatedLists
import ThinkingUnderstanding.Persistence.NarrativeSaves

/-!
# Are narratives restored?

A narrative is restored when saving it succeeds, and the narrative that is loaded from its
node has its text and its sentences, in order, each with its text and its phrases. Since the
text of a narrative is not stored, the phrases of a sentence are not read, and sentences are
told apart by the texts of their URIs, this holds of few narratives: those without a text,
whose sentences have no phrases and URIs of their own.

## Main definitions

* `NarrativeRestored` — the loaded narrative is the one that was saved
* `NarrativeRoundTrips` — saving succeeds, and loading restores
* `Restorable` — the condition

## Main results

* `Told.sentences_restored_iff` — when the sentences that are loaded are those that were saved
* `narrativeRoundTrips_iff` — the condition is enough, and necessary for new sentences
-/

namespace ThinkingUnderstanding

open Math Semantics

/-- A sentence that was loaded in the state `w` is the one that was saved in the state `t`. -/
structure SentenceRestored (t w : World) (x x' : AnnotatedSentence) : Prop where
  identity : w.uidOf x'.uri = t.uidOf x.uri
  text : x'.text = x.text
  phrases : List.Forall₂ (fun p p' => (w.heap.phrase p').text = (t.heap.phrase p).text)
    x.phrases x'.phrases

/-- A narrative that was loaded in the state `w` is the one that was saved in the state `t`. -/
structure NarrativeRestored (t w : World) (n n' : AnnotatedNarrative) : Prop where
  identity : w.uidOf n'.uri = t.uidOf n.uri
  text : n'.text = n.text
  sentences : List.Forall₂ (SentenceRestored t w) n.sentences n'.sentences

/-- The narrative is saved, and what is then loaded by the key is the narrative. -/
def NarrativeRoundTrips (platform : Platform) (stack : ℕ) (s : World) (n : AnnotatedNarrative)
    (parent : Option ℕ) (key linkType : String) : Prop :=
  ∃ t n' w, (n.saveAnew platform stack parent key linkType).run s = .ok () t ∧
    (AnnotatedNarrative.load platform parent key linkType).run t = .ok n' w ∧
    NarrativeRestored t w n n'

section Condition

variable (s : World) (n : AnnotatedNarrative) (parent : Option ℕ) (key linkType : String)

/-- The relationships by which its sentences are stored, each as a node of its own. -/
def AnnotatedNarrative.sentenceRelationships : List Relationship :=
  n.sentences.mapIdx fun i x =>
    ⟨s.kb.upcoming 0, s.kb.upcoming (i + 1), phrasesLinkName, s.textOf x.uri⟩

/-- The relationships of the type of sentences that the node of the narrative then has. -/
def AnnotatedNarrative.nodeRelationships : List Relationship :=
  (if linkType = phrasesLinkName then
    [AnnotatedNarrative.ownRelationship s parent key linkType] else []) ++ n.sentenceRelationships s

end Condition

/-- When a narrative is restored. -/
structure Restorable (platform : Platform) (s : World) (n : AnnotatedNarrative)
    (parent : Option ℕ) (key linkType : String) : Prop where
  text : n.text = ""
  phrases : ∀ x ∈ n.sentences, x.phrases = []
  /-- The texts of the URIs are accepted, or have been made before. -/
  accepted : (s.heap.uri n.uri).Accepted platform ∧
    ∀ x ∈ n.sentences, (s.heap.uri x.uri).Accepted platform
  /-- The narrative and its sentences have URIs with texts of their own. -/
  apart : (s.textOf n.uri :: n.sentences.map fun x => s.textOf x.uri).Nodup
  /-- Among the relationships with the key that of the narrative is enumerated first. -/
  found : ((platform.order (s.kb.relationshipsOf (s.kb.getNodeById parent) linkType ++
    [AnnotatedNarrative.ownRelationship s parent key linkType])).find? fun rel =>
      rel.key = key).map Relationship.endNode = some (s.kb.upcoming 0)
  /-- The keys of the sentences are enumerated in the order of the sentences. -/
  ordered : platform.keyOrder (((platform.order (n.nodeRelationships s parent key linkType)).filter
    fun rel => rel.endNode ≠ s.kb.upcoming 0).map Relationship.key) =
      n.sentences.map fun x => s.textOf x.uri

/-! ### What is loaded -/

section Loading

variable (platform : Platform)

/-- A sentence that is made of a node. -/
structure AnnotatedSentence.MadeOf (w : World) (map : Node) (x : AnnotatedSentence) : Prop where
  uid : w.uidOf x.uri = toString map.id
  inside : x.uri < w.heap.uris.size
  text : x.text = map.properties.text.getD ""
  phrases : x.phrases = []

/-- The state differs by new URI objects only. -/
structure World.AddsURIs (w w' : World) : Prop where
  kb : w'.kb = w.kb
  objects : w'.heap.phrase = w.heap.phrase
  size : w.heap.uris.size ≤ w'.heap.uris.size
  uids : ∀ u < w.heap.uris.size, w'.uidOf u = w.uidOf u

theorem World.AddsURIs.trans {w w' w'' : World} (first : w.AddsURIs w') (second : w'.AddsURIs w'') :
    w.AddsURIs w'' where
  kb := second.kb.trans first.kb
  objects := second.objects.trans first.objects
  size := first.size.trans second.size
  uids u before := (second.uids u (before.trans_le first.size)).trans (first.uids u before)

theorem AnnotatedSentence.MadeOf.adds {w w' : World} {map : Node} {x : AnnotatedSentence}
    (made : x.MadeOf w map) (adds : w.AddsURIs w') : x.MadeOf w' map where
  uid := (adds.uids _ made.inside).trans made.uid
  inside := made.inside.trans_le adds.size
  text := made.text
  phrases := made.phrases

theorem run_createURI_adds (uri : KnowledgeURI) (w : World) :
    ∃ w', (createURI uri).run w = .ok w.heap.uris.size w' ∧ w.AddsURIs w' ∧
      w.heap.uris.size < w'.heap.uris.size ∧ w'.uidOf w.heap.uris.size = uri.uid := by
  refine ⟨_, rfl, ⟨rfl, rfl, ?_, fun u before => ?_⟩, ?_, ?_⟩
  · exact Arena.size_le_size_modify ..
  · exact congrArg KnowledgeURI.uid (Arena.get_alloc_of_lt w.heap.uris before uri)
  · exact Nat.lt_of_lt_of_eq (Nat.lt_succ_self _) (Arena.size_alloc w.heap.uris uri).symm
  · exact congrArg KnowledgeURI.uid (Arena.get_alloc_size w.heap.uris uri)

/-- Sentences are made of the nodes, one by one. -/
theorem AnnotatedSentence.run_mapM_ofMap (maps : List Node) (w : World) :
    ∃ xs w', (maps.mapM (AnnotatedSentence.ofMap platform)).run w = .ok xs w' ∧ w.AddsURIs w' ∧
      List.Forall₂ (fun map x => MadeOf w' map x) maps xs := by
  induction maps generalizing w with
  | nil => exact ⟨[], w, rfl, ⟨rfl, rfl, le_rfl, fun _ _ => rfl⟩, .nil⟩
  | cons map maps ih =>
    obtain ⟨w₁, run₁, adds₁, new, uid⟩ := run_createURI_adds (KnowledgeURI.ofMap platform map) w
    obtain ⟨xs, w₂, run₂, adds₂, made⟩ := ih w₁
    let x : AnnotatedSentence :=
      ⟨[], w.heap.uris.size, .ofMap map, map.properties.text.getD ""⟩
    have first : x.MadeOf w₁ map := ⟨uid, new, rfl, rfl⟩
    refine ⟨x :: xs, w₂, ?_, adds₁.trans adds₂, .cons (first.adds adds₂) made⟩
    rw [List.mapM_cons]
    simp only [AnnotatedSentence.ofMap, EStateM.run_bind, run₁, EStateM.run_pure, run₂]
    rfl

variable {platform} {t : World} {parent : Option ℕ} {key linkType : String}

/-- A narrative is made of the node that is found, and its sentences of the children. -/
theorem AnnotatedNarrative.run_load_of_found {selfMap : Node}
    (found : t.kb.loadChild platform parent key linkType = some selfMap) :
    ∃ n' w, (AnnotatedNarrative.load platform parent key linkType).run t = .ok n' w ∧
      w.uidOf n'.uri = toString selfMap.id ∧ n'.text = selfMap.properties.text.getD "" ∧
      List.Forall₂ (fun map x => AnnotatedSentence.MadeOf w map x)
        (t.kb.loadChildrenList platform (some selfMap.id) phrasesLinkName) n'.sentences := by
  obtain ⟨xs, w₁, run₁, -, made⟩ := AnnotatedSentence.run_mapM_ofMap platform
    (t.kb.loadChildrenList platform (some selfMap.id) phrasesLinkName) t
  obtain ⟨w₂, run₂, adds, -, uid⟩ := run_createURI_adds (KnowledgeURI.ofMap platform selfMap) w₁
  refine ⟨⟨xs, w₁.heap.uris.size, .ofMap selfMap, selfMap.properties.text.getD ""⟩, w₂, ?_, uid,
    rfl, made.imp fun map x before => before.adds adds⟩
  simp only [AnnotatedNarrative.load, EStateM.run_bind, EStateM.run_get, found, run₁, run₂]
  rfl

theorem AnnotatedNarrative.run_load_of_missing
    (missing : t.kb.loadChild platform parent key linkType = none) :
    ∃ e, (AnnotatedNarrative.load platform parent key linkType).run t = .error e t := by
  refine ⟨.unexpectedException (notLoaded key linkType "tu.model.knowledge.KBNodeId"), ?_⟩
  simp only [AnnotatedNarrative.load, EStateM.run_bind, EStateM.run_get, missing]
  rfl

end Loading

section Told

variable {platform : Platform} {s t : World} {n : AnnotatedNarrative} {linkType key : String}
  {told : List (AnnotatedSentence × ℕ)} {parent : {id // s.kb.HasNode id}}

/-- The relationship by which a sentence has been saved. -/
def Told.relationship (s : World) (entry : AnnotatedSentence × ℕ) : Relationship :=
  ⟨s.kb.upcoming 0, entry.2, phrasesLinkName, s.textOf entry.1.uri⟩

theorem Told.getNodeById (begun : Told platform s n (some parent) key linkType told t) :
    (t.kb.getNodeById (some parent)).val = parent :=
  congrArg Subtype.val (KB.getNodeById_of_hasNode (begun.older parent parent.2))

/-- The parent is related to the narrative, and not to its sentences. -/
theorem Told.relationshipsOf_parent (begun : Told platform s n (some parent) key linkType told t) :
    t.kb.relationshipsOf parent linkType = s.kb.relationshipsOf parent linkType ++
      [AnnotatedNarrative.ownRelationship s (some parent) key linkType] := by
  have other : s.kb.upcoming 0 ≠ parent.val := fun same => s.kb.not_hasNode_upcoming 0 (same ▸ parent.2)
  have none : (told.map (Told.relationship s)).filter (fun rel =>
      (rel.startNode = parent.val ∨ rel.endNode = parent.val) ∧ rel.type = linkType) = [] := by
    rw [List.filter_eq_nil_iff]
    intro rel member
    obtain ⟨entry, saved, rfl⟩ := List.mem_map.mp member
    have new : entry.2 ≠ parent.val := fun same => (begun.newer entry saved).2 (same ▸ parent.2)
    simp [Told.relationship, other, new]
  have start : (s.kb.getNodeById (some parent.val)).val = parent :=
    congrArg Subtype.val (KB.getNodeById_of_hasNode parent.2)
  unfold KB.relationshipsOf
  rw [begun.relationships, List.filter_append, List.filter_cons_of_pos]
  · exact congrArg (fun rels => _ ++ _ :: rels) none
  · simp [AnnotatedNarrative.ownRelationship, start]

/-- The narrative is related to its parent and to its sentences. -/
theorem Told.relationshipsOf_narrative (begun : Told platform s n (some parent) key linkType told t) :
    t.kb.relationshipsOf (s.kb.upcoming 0) phrasesLinkName =
      (if linkType = phrasesLinkName then
        [AnnotatedNarrative.ownRelationship s (some parent) key linkType] else []) ++
      told.map (Told.relationship s) := by
  -- no relationship that was there before touches the node of the narrative
  have none : s.kb.relationships.filter (fun rel => (rel.startNode = s.kb.upcoming 0 ∨
      rel.endNode = s.kb.upcoming 0) ∧ rel.type = phrasesLinkName) = [] := by
    rw [List.filter_eq_nil_iff]
    intro rel member
    have starts : rel.startNode ≠ s.kb.upcoming 0 := fun same =>
      s.kb.not_hasNode_upcoming 0 (same ▸ (s.kb.joined rel member).1)
    have ends : rel.endNode ≠ s.kb.upcoming 0 := fun same =>
      s.kb.not_hasNode_upcoming 0 (same ▸ (s.kb.joined rel member).2)
    simp [starts, ends]
  have all : (told.map (Told.relationship s)).filter (fun rel => (rel.startNode = s.kb.upcoming 0 ∨
      rel.endNode = s.kb.upcoming 0) ∧ rel.type = phrasesLinkName) =
        told.map (Told.relationship s) := by
    rw [List.filter_eq_self]
    intro rel member
    obtain ⟨entry, -, rfl⟩ := List.mem_map.mp member
    simp [Told.relationship]
  unfold KB.relationshipsOf
  rw [begun.relationships, List.filter_append, none, List.nil_append,
    List.filter_cons]
  by_cases type : linkType = phrasesLinkName
  · rw [if_pos type, if_pos (by simp [AnnotatedNarrative.ownRelationship, type])]
    exact congrArg (_ :: ·) all
  · rw [if_neg type, if_neg (by simp [AnnotatedNarrative.ownRelationship, type])]
    exact all

/-- The relationships of which the map of sentences is made. -/
def Told.enumerated (platform : Platform) (s t : World) : List Relationship :=
  (platform.order (t.kb.relationshipsOf (s.kb.upcoming 0) phrasesLinkName)).filter
    fun rel => rel.endNode ≠ s.kb.upcoming 0

/-- The map of sentences is made of those by which sentences have been saved, but for those
that end at the narrative. -/
theorem Told.enumerated_perm (begun : Told platform s n (some parent) key linkType told t) :
    (Told.enumerated platform s t).Perm
      ((told.filter fun entry => entry.2 ≠ s.kb.upcoming 0).map (Told.relationship s)) := by
  have own : (if linkType = phrasesLinkName then
      [AnnotatedNarrative.ownRelationship s (some parent) key linkType] else []).filter
        (fun rel => rel.endNode ≠ s.kb.upcoming 0) = [] := by
    split_ifs <;> simp [AnnotatedNarrative.ownRelationship]
  have perm := (platform.order_perm (t.kb.relationshipsOf (s.kb.upcoming 0) phrasesLinkName)).filter
    fun rel => rel.endNode ≠ s.kb.upcoming 0
  rw [begun.relationshipsOf_narrative, List.filter_append, own, List.nil_append,
    List.filter_map] at perm
  rw [Told.enumerated, begun.relationshipsOf_narrative]
  exact perm

theorem Told.loadChildrenMap (begun : Told platform s n (some parent) key linkType told t) :
    t.kb.loadChildrenMap platform (some (s.kb.upcoming 0)) phrasesLinkName =
      .ofList ((Told.enumerated platform s t).map fun rel => (rel.key, t.kb.node rel.endNode)) := by
  rw [KB.loadChildrenMap, KB.getNodeById_of_hasNode begun.hasNode]
  rfl

/-- When as many sentences are loaded as have been saved, they have texts of their own. -/
theorem Told.nodup_of_length_le (begun : Told platform s n (some parent) key linkType told t)
    (shared : Told.Shared s n told) (length : told.length ≤
      (t.kb.loadChildrenList platform (some (s.kb.upcoming 0)) phrasesLinkName).length) :
    (s.textOf n.uri :: told.map fun entry => s.textOf entry.1.uri).Nodup := by
  have perm := begun.enumerated_perm.map Relationship.key
  rw [List.map_map] at perm
  let entries := (Told.enumerated platform s t).map fun rel => (rel.key, t.kb.node rel.endNode)
  have keys : entries.map Prod.fst = (Told.enumerated platform s t).map Relationship.key :=
    List.map_map
  -- no more children than keys, no more keys than relationships of which the map is made
  have children : (t.kb.loadChildrenList platform (some (s.kb.upcoming 0)) phrasesLinkName).length ≤
      (InsertionMap.ofList entries).keys.length := by
    refine (List.length_filterMap_le ..).trans ?_
    rw [KB.childKeys, (platform.keyOrder_perm _).length_eq, begun.loadChildrenMap]
  have subperm := InsertionMap.subperm_keys_ofList entries
  rw [keys] at subperm
  have kept := List.length_filter_le (fun entry => decide (entry.2 ≠ s.kb.upcoming 0)) told
  have size := perm.length_eq.trans (List.length_map _)
  have least := subperm.length_le
  have all : told.filter (fun entry => entry.2 ≠ s.kb.upcoming 0) = told :=
    List.filter_sublist.eq_of_length (by omega)
  rw [all] at perm
  have nodup := (perm.nodup_iff.mp
    ((subperm.perm_of_length_le (by omega)).nodup_iff.mp (InsertionMap.nodup_keys _)))
  refine List.nodup_cons.mpr ⟨fun member => ?_, nodup⟩
  -- a sentence with the text of the narrative ends at it
  obtain ⟨entry, saved, text⟩ := List.mem_map.mp member
  have elsewhere := List.filter_eq_self.mp all entry saved
  exact absurd (shared entry saved text) (of_decide_eq_true elsewhere)

end Told

section Apart

variable {platform : Platform} {s t w : World} {n n' : AnnotatedNarrative} {linkType key : String}
  {parent : {id // s.kb.HasNode id}}

theorem AnnotatedNarrative.map_fst_numbered (s : World) (sentences : List AnnotatedSentence) :
    (numbered s sentences).map Prod.fst = sentences := by
  apply List.ext_getElem
  · simp [numbered]
  · simp [numbered]

theorem AnnotatedNarrative.map_numbered {β : Type} (s : World) (sentences : List AnnotatedSentence)
    (f : AnnotatedSentence → β) :
    (numbered s sentences).map (fun entry => f entry.1) = sentences.map f := by
  conv_rhs => rw [← map_fst_numbered s sentences, List.map_map]
  rfl

theorem AnnotatedNarrative.mem_of_numbered {sentences : List AnnotatedSentence}
    {entry : AnnotatedSentence × ℕ} (member : entry ∈ numbered s sentences) :
    entry.1 ∈ sentences := map_fst_numbered s sentences ▸ List.mem_map_of_mem member

/-- Different sentences are different nodes. -/
theorem AnnotatedNarrative.eq_of_numbered {sentences : List AnnotatedSentence}
    {entry entry' : AnnotatedSentence × ℕ} (member : entry ∈ numbered s sentences)
    (member' : entry' ∈ numbered s sentences) (same : entry.2 = entry'.2) : entry = entry' := by
  obtain ⟨i, inside, rfl⟩ := List.mem_mapIdx.mp member
  obtain ⟨j, inside', rfl⟩ := List.mem_mapIdx.mp member'
  obtain rfl : i = j := Nat.succ_injective (s.kb.upcoming_injective same)
  rfl

variable (begun : Told platform s n (some parent) key linkType
  (AnnotatedNarrative.numbered s n.sentences) t)
include begun

theorem Told.enumerated_apart : Told.enumerated platform s t =
    (platform.order (n.nodeRelationships s (some parent) key linkType)).filter
      fun rel => rel.endNode ≠ s.kb.upcoming 0 := by
  have sentences : (AnnotatedNarrative.numbered s n.sentences).map (Told.relationship s) =
      n.sentenceRelationships s := by
    apply List.ext_getElem
    · simp [AnnotatedNarrative.numbered, AnnotatedNarrative.sentenceRelationships]
    · simp [AnnotatedNarrative.numbered, AnnotatedNarrative.sentenceRelationships, Told.relationship]
  rw [Told.enumerated, begun.relationshipsOf_narrative, sentences]
  rfl

/-- What is enumerated has the texts of the sentences as its keys. -/
theorem Told.keys_perm : ((Told.enumerated platform s t).map Relationship.key).Perm
    (n.sentences.map fun x => s.textOf x.uri) := by
  have perm := begun.enumerated_perm.map Relationship.key
  have all : (AnnotatedNarrative.numbered s n.sentences).filter
      (fun entry => entry.2 ≠ s.kb.upcoming 0) = AnnotatedNarrative.numbered s n.sentences := by
    rw [List.filter_eq_self]
    intro entry member
    obtain ⟨i, inside, rfl⟩ := List.mem_mapIdx.mp member
    have other : s.kb.upcoming (i + 1) ≠ s.kb.upcoming 0 := fun same =>
      Nat.succ_ne_zero i (s.kb.upcoming_injective same)
    simp [other]
  rw [all, List.map_map] at perm
  rwa [← AnnotatedNarrative.map_numbered s n.sentences fun x => s.textOf x.uri]

variable (apart : (n.sentences.map fun x => s.textOf x.uri).Nodup)
include apart

theorem Told.entries_loadChildrenMap :
    (t.kb.loadChildrenMap platform (some (s.kb.upcoming 0)) phrasesLinkName).entries =
      (Told.enumerated platform s t).map fun rel => (rel.key, t.kb.node rel.endNode) := by
  rw [begun.loadChildrenMap]
  apply InsertionMap.entries_ofList_of_nodup
  rw [List.map_map]
  exact begun.keys_perm.nodup_iff.mpr apart

theorem Told.childKeys : t.kb.childKeys platform (some (s.kb.upcoming 0)) phrasesLinkName =
    platform.keyOrder ((Told.enumerated platform s t).map Relationship.key) := by
  rw [KB.childKeys, InsertionMap.keys, begun.entries_loadChildrenMap apart, List.map_map]
  rfl

variable (each : ToldApart s (AnnotatedNarrative.numbered s n.sentences) t)
include each

/-- Under the text of a sentence its node is found. -/
theorem Told.get?_of_mem {entry : AnnotatedSentence × ℕ}
    (member : entry ∈ AnnotatedNarrative.numbered s n.sentences) :
    (t.kb.loadChildrenMap platform (some (s.kb.upcoming 0)) phrasesLinkName).get?
      (s.textOf entry.1.uri) = some ⟨entry.2, s.heap.exportedSentence entry.1⟩ := by
  rw [InsertionMap.get?_eq_some_iff, begun.entries_loadChildrenMap apart, List.mem_map]
  obtain ⟨i, inside, rfl⟩ := List.mem_mapIdx.mp member
  have other : s.kb.upcoming (i + 1) ≠ s.kb.upcoming 0 := fun same =>
    Nat.succ_ne_zero i (s.kb.upcoming_injective same)
  refine ⟨Told.relationship s _, begun.enumerated_perm.mem_iff.mpr (List.mem_map_of_mem
    (List.mem_filter.mpr ⟨member, decide_eq_true other⟩)), ?_⟩
  exact congrArg (Prod.mk _) (each.nodes _ member)

/-- The sentences that are made of the children are those that have been saved exactly when the
keys are enumerated in their order. -/
theorem Told.sentences_restored_iff (phrases : ∀ x ∈ n.sentences, x.phrases = [])
    (made : List.Forall₂ (fun map x => AnnotatedSentence.MadeOf w map x)
      (t.kb.loadChildrenList platform (some (s.kb.upcoming 0)) phrasesLinkName) n'.sentences) :
    List.Forall₂ (SentenceRestored t w) n.sentences n'.sentences ↔
      platform.keyOrder ((Told.enumerated platform s t).map Relationship.key) =
        n.sentences.map fun x => s.textOf x.uri := by
  have texts := AnnotatedNarrative.map_numbered s n.sentences fun x => s.textOf x.uri
  rw [KB.loadChildrenList, begun.childKeys apart] at made
  constructor
  · intro restored
    have perm := (platform.keyOrder_perm _).trans begun.keys_perm
    have lookedUp : List.Forall₂ (fun key child => (t.kb.loadChildrenMap platform
        (some (s.kb.upcoming 0)) phrasesLinkName).get? key = some child) _ _ :=
      forall₂_filterMap _ fun key listed => by
        rw [perm.mem_iff, ← texts] at listed
        obtain ⟨entry, member, rfl⟩ := List.mem_map.mp listed
        exact ⟨_, begun.get?_of_mem apart each member⟩
    refine List.ext_getElem perm.length_eq fun i inside inside' => ?_
    have within : i < n.sentences.length := by simpa using inside'
    have within' : i < n'.sentences.length := restored.length_eq ▸ within
    have within'' := made.length_eq ▸ within'
    -- the i-th child is the node of the i-th sentence
    have found := lookedUp.get inside within''
    have child := (made.get within'' within').uid
    rw [(restored.get within within').identity] at child
    have saved : (n.sentences[i], s.kb.upcoming (i + 1)) ∈
        AnnotatedNarrative.numbered s n.sentences := List.mem_mapIdx.mpr ⟨i, within, rfl⟩
    have number := toString_nat_injective ((begun.uids _ saved).symm.trans child)
    -- and the key is the text of the one sentence with that node
    have listed := perm.mem_iff.mp (List.getElem_mem inside)
    rw [← texts] at listed
    obtain ⟨entry, member, text⟩ := List.mem_map.mp listed
    have node := begun.get?_of_mem apart each member
    rw [text] at node
    have same := Option.some.inj (node.symm.trans found)
    replace number := number.trans (congrArg Node.id same).symm
    obtain rfl := AnnotatedNarrative.eq_of_numbered saved member number
    rw [← text, List.getElem_map]
  · intro ordered
    rw [ordered, ← texts, List.filterMap_map, List.filterMap_congr (g := some ∘ fun entry =>
      ⟨entry.2, s.heap.exportedSentence entry.1⟩) fun entry member =>
        begun.get?_of_mem apart each member, List.filterMap_eq_map, List.forall₂_map_left_iff] at made
    have known := (List.forall₂_and_left ..).mpr ⟨fun entry member => And.intro
      (begun.uids entry member) (phrases entry.1 (AnnotatedNarrative.mem_of_numbered member)), made⟩
    rw [← AnnotatedNarrative.map_fst_numbered s n.sentences, List.forall₂_map_left_iff]
    refine known.imp fun entry x' both => ⟨?_, ?_, ?_⟩
    · rw [both.1.1, both.2.uid]
    · exact both.2.text
    · rw [both.1.2, both.2.phrases]
      exact .nil

end Apart

section Restored

variable {platform : Platform} {stack : ℕ} {s t : World} {n : AnnotatedNarrative}
  {linkType key : String} {told : List (AnnotatedSentence × ℕ)} {parent : {id // s.kb.HasNode id}}

/-- What is found below the parent, by the number of its node. -/
theorem Told.loadChild (begun : Told platform s n (some parent) key linkType told t) :
    t.kb.loadChild platform (some parent) key linkType =
      (((platform.order (s.kb.relationshipsOf (s.kb.getNodeById (some parent)) linkType ++
        [AnnotatedNarrative.ownRelationship s (some parent) key linkType])).find? fun rel =>
          rel.key = key).map Relationship.endNode).map t.kb.node := by
  rw [KB.loadChild, begun.getNodeById, begun.relationshipsOf_parent, Option.map_map,
    KB.getNodeById_of_hasNode parent.2]
  rfl

/-- The run of `save`, when it is known to leave texts of their own. -/
theorem exists_run_saveAnew_of_apart (platform : Platform) (stack : ℕ) (key linkType : String)
    (parent : Option ℕ) (phrases : ∀ x ∈ n.sentences, x.phrases = [])
    (accepted : (s.heap.uri n.uri).Accepted platform ∧
      ∀ x ∈ n.sentences, (s.heap.uri x.uri).Accepted platform)
    (apart : (s.textOf n.uri :: n.sentences.map fun x => s.textOf x.uri).Nodup) :
    ∃ t, (n.saveAnew platform stack parent key linkType).run s = .ok () t ∧
      Told platform s n parent key linkType (AnnotatedNarrative.numbered s n.sentences) t ∧
      ToldApart s (AnnotatedNarrative.numbered s n.sentences) t := by
  obtain ⟨w, begun, each, run⟩ :=
    run_saveAnew_narrative platform stack s n parent key linkType accepted.1
  obtain ⟨t, rest, ended⟩ := Told.run_sentences stack phrases accepted.2 [] apart begun each
  exact ⟨t, run.trans rest, ended⟩

theorem Restorable.roundTrips (restorable : Restorable platform s n (some parent) key linkType) :
    NarrativeRoundTrips platform stack s n (some parent) key linkType := by
  obtain ⟨t, run, begun, each⟩ := exists_run_saveAnew_of_apart platform stack key linkType
    (some parent) restorable.phrases restorable.accepted restorable.apart
  have apart := (List.nodup_cons.mp restorable.apart).2
  have found := begun.loadChild
  rw [restorable.found, Option.map_some, begun.node] at found
  obtain ⟨n', w, load, uid, text, made⟩ := AnnotatedNarrative.run_load_of_found found
  refine ⟨t, n', w, run, load, uid.trans begun.uid.symm, ?_, ?_⟩
  · rw [text, restorable.text]
    rfl
  · rw [begun.sentences_restored_iff apart each restorable.phrases made, begun.enumerated_apart]
    exact restorable.ordered

/-- The sentences that are loaded have no phrases. -/
theorem NarrativeRoundTrips.phrases {parent : Option ℕ}
    (roundTrips : NarrativeRoundTrips platform stack s n parent key linkType) :
    ∀ x ∈ n.sentences, x.phrases = [] := by
  obtain ⟨t, n', w, -, load, restored⟩ := roundTrips
  cases found : t.kb.loadChild platform parent key linkType with
  | none =>
    obtain ⟨e, failed⟩ := AnnotatedNarrative.run_load_of_missing found
    exact nomatch failed.symm.trans load
  | some selfMap =>
    obtain ⟨n'', w', load', -, -, made⟩ := AnnotatedNarrative.run_load_of_found found
    obtain ⟨rfl, rfl⟩ := EStateM.Result.ok.inj (load'.symm.trans load)
    intro x member
    obtain ⟨i, inside, rfl⟩ := List.getElem_of_mem member
    have inside' := restored.sentences.length_eq ▸ inside
    have none := (made.get (made.length_eq ▸ inside') inside').phrases
    have phrases := (restored.sentences.get inside inside').phrases
    rw [none, List.forall₂_nil_right_iff] at phrases
    exact phrases

theorem NarrativeRoundTrips.restorable (unsaved : ∀ x ∈ n.sentences, s.uidOf x.uri = "")
    (roundTrips : NarrativeRoundTrips platform stack s n (some parent) key linkType) :
    Restorable platform s n (some parent) key linkType := by
  have phrases := roundTrips.phrases
  obtain ⟨t, n', w, run, load, restored⟩ := roundTrips
  have accepted : (s.heap.uri n.uri).Accepted platform := by
    by_contra refused
    obtain ⟨e, t', failed⟩ := run_saveAnew_narrative_of_refused stack (some parent.val) key linkType
      refused
    exact nomatch failed.symm.trans run
  obtain ⟨w₀, begun₀, -, run₀⟩ :=
    run_saveAnew_narrative platform stack s n (some parent) key linkType accepted
  obtain ⟨accepted', told, sentences, begun, shared⟩ := Told.of_run_sentences stack phrases unsaved begun₀
    (List.forall_mem_nil _) (run₀.symm.trans run)
  rw [List.map_nil, List.nil_append] at sentences
  -- the narrative itself is found
  cases found : t.kb.loadChild platform (some parent) key linkType with
  | none =>
    obtain ⟨e, failed⟩ := AnnotatedNarrative.run_load_of_missing found
    exact nomatch failed.symm.trans load
  | some selfMap =>
    obtain ⟨n'', w', load', uid, text, made⟩ := AnnotatedNarrative.run_load_of_found found
    obtain ⟨rfl, rfl⟩ := EStateM.Result.ok.inj (load'.symm.trans load)
    have self : s.kb.upcoming 0 = selfMap.id := by
      apply toString_nat_injective
      rw [← begun.uid, ← restored.identity, uid]
    rw [begun.loadChild] at found
    obtain ⟨id, first, rfl⟩ := Option.map_eq_some_iff.mp found
    rw [KB.id_node] at self
    subst self
    rw [KB.id_node] at made
    have length : told.length ≤
        (t.kb.loadChildrenList platform (some (s.kb.upcoming 0)) phrasesLinkName).length := by
      rw [made.length_eq, ← restored.sentences.length_eq, ← sentences, List.length_map]
    have apart := begun.nodup_of_length_le shared length
    have texts : (told.map fun entry => s.textOf entry.1.uri) =
        n.sentences.map fun x => s.textOf x.uri := by
      rw [← sentences, List.map_map]
      rfl
    rw [texts] at apart
    -- so each sentence is a node of its own
    obtain ⟨t', run', begun', each⟩ := exists_run_saveAnew_of_apart platform stack key linkType
      (some parent.val) phrases ⟨accepted, accepted'⟩ apart
    obtain ⟨-, rfl⟩ := EStateM.Result.ok.inj (run.symm.trans run')
    have ordered := (begun'.sentences_restored_iff (List.nodup_cons.mp apart).2 each phrases
      made).mp restored.sentences
    rw [begun'.enumerated_apart] at ordered
    refine ⟨?_, phrases, ⟨accepted, accepted'⟩, apart, first, ordered⟩
    rw [← restored.text, text, begun.node]
    rfl

/-- A narrative whose sentences have not been saved before is restored exactly when it has no
text and the sentences have no phrases, their URIs have texts of their own, and the narrative
and the order of its sentences are found again. -/
theorem narrativeRoundTrips_iff (platform : Platform) (stack : ℕ) (s : World)
    (n : AnnotatedNarrative) (parent : {id // s.kb.HasNode id}) (key linkType : String) :
    (Restorable platform s n (some parent) key linkType →
      NarrativeRoundTrips platform stack s n (some parent) key linkType) ∧
    ((∀ x ∈ n.sentences, s.uidOf x.uri = "") →
      NarrativeRoundTrips platform stack s n (some parent) key linkType →
        Restorable platform s n (some parent) key linkType) :=
  ⟨Restorable.roundTrips, NarrativeRoundTrips.restorable⟩

end Restored

/-! ### Two sentences made alike -/

/-- A process with the URIs of a narrative and of two sentences that are made without one. -/
def unsavedSentences : World where
  heap := { uris := .ofList [{ name := "narrative" }, { name := "AnnotatedSentence" },
    { name := "AnnotatedSentence" }] }
  kb := .onlyRoot
  id2object _ := none

/-- A narrative of two sentences without phrases. -/
def narrativeOfTwo : AnnotatedNarrative where
  sentences := [{ uri := 1, text := "Install Firefox." }, { uri := 2, text := "Remove it." }]
  uri := 0

/-- The same, with a URI for each sentence. -/
def ownURIs : World :=
  { unsavedSentences with
    heap :=
      { uris := .ofList [{ name := "narrative" }, { name := "first" }, { name := "second" }] } }

/-- The two sentences are read back in their order. -/
theorem narrativeOfTwo_roundTrips : NarrativeRoundTrips .plain 1 ownURIs narrativeOfTwo
    (some KB.rootId) "narrative" defaultLinkName := by
  have accepted : ∀ u, (ownURIs.heap.uri u).Accepted .plain := fun u _ => rfl
  exact (narrativeRoundTrips_iff .plain 1 ownURIs narrativeOfTwo
    ⟨KB.rootId, by decide +kernel⟩ "narrative" defaultLinkName).1
    { text := rfl
      phrases := by decide +kernel
      accepted := ⟨accepted _, fun x _ => accepted x.uri⟩
      apart := by decide +kernel
      found := by decide +kernel
      ordered := by decide +kernel }

/-- The second sentence is taken for one that has been saved, and has no node. -/
theorem second_sentence_not_saved : ¬ NarrativeRoundTrips .plain 1 unsavedSentences narrativeOfTwo
    (some KB.rootId) "narrative" defaultLinkName := by
  rintro ⟨t, n', w, run, -⟩
  have failed : (returned ((narrativeOfTwo.saveAnew .plain 1 (some KB.rootId) "narrative"
      defaultLinkName).run unsavedSentences)).isNone = true := by decide +kernel
  rw [run] at failed
  exact nomatch failed

end ThinkingUnderstanding
