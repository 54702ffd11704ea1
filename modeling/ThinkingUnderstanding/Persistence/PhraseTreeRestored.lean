import ThinkingUnderstanding.Persistence.PhraseTreeLoads
import ThinkingUnderstanding.Persistence.ReadChildren

/-!
# Trees of phrases that are restored

What a load reads at the node of a phrase depends on the order in which relationships are
enumerated. In whatever order, the sub-phrases are read as they were written exactly when their
texts are their own, when the phrase is not reached under one of them, and when the hash map
enumerates these texts in the order of the sub-phrases.

Orders for the converse: the relationship that is mistaken for another one is enumerated first;
and the relationships to the sub-phrases are enumerated so that any arrangement of their texts is
that in which the map is filled.

## Main definitions

* `TreeSavable` — the trees that are considered

## Main results

* `SavePlan.Stored.loadChild_phrase`, `SavePlan.exists_order_of_perm` — how sub-phrases are read
* `TreeSavable.roundTrips_iff` — a tree is restored when what is read is what was written
* `phraseRoundTrips_iff` — when a tree of phrases is restored in whatever order
-/

namespace ThinkingUnderstanding

open Math Semantics

/-- A phrase of a tree is not a sub-phrase of its own. -/
theorem Heap.not_mem_phrases {heap : Heap} {height : ℕ} {p q : PhraseRef}
    (bounded : heap.HasHeight height p) (distinct : (heap.phrasesBelow height p).Nodup)
    (below : q ∈ heap.phrasesBelow height p) : q ∉ (heap.phrase q).phrases := by
  induction height generalizing p with
  | zero => exact bounded.elim
  | succ height ih =>
    obtain ⟨single, rest⟩ := List.nodup_cons.mp distinct
    rcases List.mem_cons.mp below with rfl | deeper
    · intro inside
      exact single (List.mem_flatMap.mpr ⟨q, inside, Heap.mem_phrasesBelow (bounded q inside)⟩)
    · obtain ⟨p', child, below⟩ := List.mem_flatMap.mp deeper
      exact ih (bounded p' child) ((List.nodup_flatMap.mp rest).1 p' child) below

namespace SavePlan.Stored

variable {platform : Platform} {plan : SavePlan} {startNode : ℕ} {root : Child} {kb : KB}
  {q : PhraseRef} (stored : plan.Stored startNode root kb) (member : .phrase q ∈ plan.resources)

include stored member

variable (platform) in
/-- The relationships to the concepts of a phrase. -/
theorem perm_concepts : ((platform.order (kb.relationshipsOf
      (plan.nodeOf (.phrase q)) conceptLinkName)).filter fun rel =>
        rel.endNode ≠ plan.nodeOf (.phrase q)).Perm
    ((plan.heap.phrase q).concepts.map fun c =>
      plan.relationship (plan.nodeOf (.phrase q)) (Heap.child conceptLinkName (.concept c))) := by
  have perm := stored.perm_below platform member (Heap.filter_children_concepts q) (by simp)
  rw [List.map_map] at perm
  exact perm

variable (platform) in
/-- The relationships to the sub-phrases of a phrase. -/
theorem perm_phrases (single : q ∉ (plan.heap.phrase q).phrases) : ((platform.order
      (kb.relationshipsOf (plan.nodeOf (.phrase q)) phrasesLinkName)).filter fun rel =>
        rel.endNode ≠ plan.nodeOf (.phrase q)).Perm
    ((plan.heap.phrase q).phrases.map fun q' =>
      plan.relationship (plan.nodeOf (.phrase q)) (Heap.child phrasesLinkName (.phrase q'))) := by
  have perm := stored.perm_below platform member (Heap.filter_children_phrases q) (by simpa)
  rw [List.map_map] at perm
  exact perm

/-- A list of the nodes of all concepts of a phrase is read, when their texts are their own. -/
theorem concepts_iff (closed : DepthFirst.Closed plan.heap.children Child.resource plan.resources) :
    (∃ cs : List ConceptRef, cs.Perm (plan.heap.phrase q).concepts ∧
      kb.loadChildrenList platform (some (plan.nodeOf (.phrase q))) conceptLinkName =
        cs.map fun c => ⟨plan.nodeOf (.concept c), plan.heap.exported (.concept c)⟩) ↔
    ((plan.heap.phrase q).concepts.map fun c => plan.textOf (.concept c)).Nodup := by
  have present := stored.getNodeById member
  have perm := stored.perm_concepts platform member
  have texts : (((plan.heap.phrase q).concepts.map fun c => plan.relationship
      (plan.nodeOf (.phrase q)) (Heap.child conceptLinkName (.concept c))).map Relationship.key) =
        (plan.heap.phrase q).concepts.map fun c => plan.textOf (.concept c) := List.map_map ..
  constructor
  · rintro ⟨cs, same, listed⟩
    rw [← texts]
    -- texts that are not different would leave the map with fewer keys
    refine KB.nodup_of_length_le present perm ?_
    have length := congrArg List.length listed
    have fewer : (kb.loadChildrenList platform (some (plan.nodeOf (.phrase q)))
        conceptLinkName).length ≤ _ := List.length_filterMap_le _ _
    rw [List.length_map, same.length_eq] at length
    rw [List.length_map]
    omega
  · intro distinct
    have own := texts ▸ distinct
    -- different texts are the keys of the map, in some order
    have keys : (kb.childKeys platform (some (plan.nodeOf (.phrase q))) conceptLinkName).Perm
        ((plan.heap.phrase q).concepts.map fun c => plan.textOf (.concept c)) := by
      rw [KB.childKeys_of_perm present perm own, ← texts]
      exact (platform.keyOrder_perm _).trans (perm.map Relationship.key)
    obtain ⟨cs, same, arranged⟩ := exists_perm_of_perm_map keys
    refine ⟨cs, same, ?_⟩
    rw [KB.loadChildrenList, arranged, List.filterMap_map]
    have value : ∀ c ∈ cs, ((kb.loadChildrenMap platform (some (plan.nodeOf (.phrase q)))
        conceptLinkName).get? ∘ fun c => plan.textOf (.concept c)) c =
          some ⟨plan.nodeOf (.concept c), plan.heap.exported (.concept c)⟩ := by
      intro c inside
      have among := same.mem_iff.mp inside
      have found := KB.get?_of_perm present perm own (List.mem_map_of_mem among)
      exact found.trans (congrArg some
        (stored.node (closed _ member _ (plan.heap.mem_children_concept among))))
    rw [List.filterMap_congr value, List.filterMap_eq_map']

/-- The keys of a map of children that has all sub-phrases are their texts. -/
theorem nodup_texts_of_childKeys (single : q ∉ (plan.heap.phrase q).phrases)
    (keys : kb.childKeys platform (some (plan.nodeOf (.phrase q))) phrasesLinkName =
      (plan.heap.phrase q).phrases.map fun q' => plan.textOf (.phrase q')) :
    ((plan.heap.phrase q).phrases.map fun q' => plan.textOf (.phrase q')).Nodup := by
  have distinct := KB.nodup_of_length_le (stored.getNodeById member)
    (stored.perm_phrases platform member single) (by simp [keys])
  rwa [List.map_map] at distinct

variable (platform) in
/-- The texts of the sub-phrases are enumerated, when these have texts of their own. -/
theorem childKeys_phrases (single : q ∉ (plan.heap.phrase q).phrases)
    (distinct : ((plan.heap.phrase q).phrases.map fun q' => plan.textOf (.phrase q')).Nodup) :
    ∃ keys : List String,
      keys.Perm ((plan.heap.phrase q).phrases.map fun q' => plan.textOf (.phrase q')) ∧
      kb.childKeys platform (some (plan.nodeOf (.phrase q))) phrasesLinkName =
        platform.keyOrder keys := by
  have perm := stored.perm_phrases platform member single
  have texts : (((plan.heap.phrase q).phrases.map fun q' => plan.relationship
      (plan.nodeOf (.phrase q)) (Heap.child phrasesLinkName (.phrase q'))).map Relationship.key) =
        (plan.heap.phrase q).phrases.map fun q' => plan.textOf (.phrase q') := List.map_map ..
  refine ⟨_, ?_, KB.childKeys_of_perm (stored.getNodeById member) perm (texts ▸ distinct)⟩
  rw [← texts]
  exact perm.map Relationship.key

/-- A sub-phrase is found by its text, when nothing else is reached by it. -/
theorem loadChild_phrase (closed : DepthFirst.Closed plan.heap.children Child.resource plan.resources)
    {q' : PhraseRef} (child : q' ∈ (plan.heap.phrase q).phrases)
    (single : q ∉ (plan.heap.phrase q).phrases)
    (distinct : ((plan.heap.phrase q).phrases.map fun q' => plan.textOf (.phrase q')).Nodup)
    (own : ∀ q' ∈ (plan.heap.phrase q).phrases, ∀ rel ∈ plan.planned startNode root,
      rel.type = phrasesLinkName → rel.endNode = plan.nodeOf (.phrase q) →
        rel.key ≠ plan.textOf (.phrase q')) :
    kb.loadChild platform (some (plan.nodeOf (.phrase q))) (plan.textOf (.phrase q'))
      phrasesLinkName = some ⟨plan.nodeOf (.phrase q'), plan.heap.exported (.phrase q')⟩ := by
  refine stored.loadChild_below member (Heap.filter_children_phrases q) ⟨?_, by simpa, ?_⟩ closed
    (List.mem_map_of_mem child)
  · rw [List.map_map]
    exact distinct
  · intro r' below
    obtain ⟨q'', inside, rfl⟩ := List.mem_map.mp below
    exact own q'' inside

end SavePlan.Stored

/-- The order in which relationships that can be arranged as the given ones are. -/
def arrange (target rels : List Relationship) : List Relationship :=
  if rels.Perm target then target else rels

theorem arrange_perm (target rels : List Relationship) : (arrange target rels).Perm rels := by
  unfold arrange
  split_ifs with same
  · exact same.symm
  · exact .refl rels

/-- Relationships can be enumerated so that a map of sub-phrases is filled in any arrangement. -/
theorem SavePlan.exists_order_of_perm {plan : SavePlan} {startNode : ℕ} {root : Child} {q : PhraseRef}
    (member : .phrase q ∈ plan.resources) (single : q ∉ (plan.heap.phrase q).phrases)
    (distinct : ((plan.heap.phrase q).phrases.map fun q' => plan.textOf (.phrase q')).Nodup)
    {keys : List String}
    (perm : keys.Perm ((plan.heap.phrase q).phrases.map fun q' => plan.textOf (.phrase q'))) :
    ∃ target, ∀ (platform : Platform) (kb : KB), platform.order = arrange target →
      plan.Stored startNode root kb →
      kb.childKeys platform (some (plan.nodeOf (.phrase q))) phrasesLinkName =
        platform.keyOrder keys := by
  obtain ⟨qs, arranged, rfl⟩ := exists_perm_of_perm_map perm
  -- the relationships that lead to the phrase, and then those to the sub-phrases as they are wanted
  let edge := fun q' => plan.relationship (plan.nodeOf (.phrase q))
    (Heap.child phrasesLinkName (.phrase q'))
  let incoming := ((plan.planned startNode root).filter fun rel =>
    (rel.startNode = plan.nodeOf (.phrase q) ∨ rel.endNode = plan.nodeOf (.phrase q)) ∧
      rel.type = phrasesLinkName).filter fun rel => rel.endNode = plan.nodeOf (.phrase q)
  refine ⟨incoming ++ qs.map edge, fun platform kb order stored => ?_⟩
  have all : (kb.relationshipsOf (plan.nodeOf (.phrase q)) phrasesLinkName).Perm
      (incoming ++ qs.map edge) := by
    have split := List.filter_append_perm (fun rel => rel.endNode = plan.nodeOf (.phrase q))
      (kb.relationshipsOf (plan.nodeOf (.phrase q)) phrasesLinkName)
    have into := (stored.relationshipsOf_perm (.phrase q) phrasesLinkName).filter
      fun rel => rel.endNode = plan.nodeOf (.phrase q)
    have out := (stored.perm_phrases .plain member single).trans (arranged.map edge).symm
    simp only [decide_not] at out
    exact split.symm.trans (into.append out)
  have own : (((plan.heap.phrase q).phrases.map edge).map Relationship.key).Nodup := by
    rw [List.map_map]
    exact distinct
  rw [KB.childKeys_of_perm (stored.getNodeById member) (stored.perm_phrases platform member single) own,
    order, arrange, if_pos all, List.filter_append, List.filter_eq_nil_iff.mpr,
    List.filter_eq_self.mpr, List.nil_append, List.map_map]
  · rfl
  · intro rel inside
    obtain ⟨q', among, rfl⟩ := List.mem_map.mp inside
    refine decide_eq_true fun same => ?_
    have here : ResourceRef.phrase q' = .phrase q := (nodeOf_injOn member same.symm).symm
    cases here
    exact single (arranged.mem_iff.mp among)
  · intro rel inside
    have ends := (List.mem_filter.mp inside).2
    simpa using ends

section Root

variable {platform : Platform} {plan : SavePlan} {root : Child} {kb : KB} {parent : Option ℕ}
  (stored : plan.Stored (plan.kb.getNodeById parent) root kb)

include stored

/-- What was there before can be found by its key. -/
theorem SavePlan.Stored.loadChild_ne (present : ∀ id, parent = some id → plan.kb.HasNode id)
    {rel : Relationship} {type : String}
    (listed : rel ∈ plan.kb.relationshipsOf (plan.kb.getNodeById parent) type)
    (favoured : platform.order = (Platform.favouring fun other => other = rel).order) (r : ResourceRef)
    (properties : Properties) :
    kb.loadChild platform parent rel.key type ≠ some ⟨plan.nodeOf r, properties⟩ := by
  rw [KB.loadChild_of_favoured favoured
    ((stored.mem_relationshipsOf_parent present).mpr (Or.inl listed))]
  intro found
  have ends := congrArg Node.id (Option.some.inj found)
  rw [kb.id_node] at ends
  have old := (plan.kb.joined rel (KB.mem_relationshipsOf.mp listed).1).2
  rw [ends] at old
  exact plan.not_hasNode_nodeOf r old

end Root

section RoundTrip

variable {platform : Platform} {stack : ℕ} {s : World} {p : PhraseRef} {parent : Option ℕ}
  {key linkType : String} {objects : List ResourceRef}

/-- The objects from which a tree of phrases is saved: finitely many, with valid uids; and the
parent is a node. -/
structure TreeSavable (s : World) (stack : ℕ) (p : PhraseRef) (parent : Option ℕ)
    (objects : List ResourceRef) : Prop where
  closed : DepthFirst.Closed s.heap.children Child.resource objects
  member : .phrase p ∈ objects
  valid : ∀ r ∈ objects, ValidUid (s.heap.uid r)
  deep : objects.length < stack
  tree : s.heap.IsPhraseTree stack p
  present : ∀ id, parent = some id → s.kb.HasNode id

namespace TreeSavable

variable (savable : TreeSavable s stack p parent objects)

include savable

theorem sound : (s.phrasePlan stack p key linkType).Sound :=
  sound_savePlan savable.closed savable.member savable.deep
    (fun _ => ResourceRef.Plain.recursive_of_reaches trivial) savable.valid

theorem mem_resources : .phrase p ∈ (s.phrasePlan stack p key linkType).resources :=
  (SavePlan.mem_resources_iff _ savable.closed savable.member savable.deep).mpr .refl

theorem mem_resources_of_below {q : PhraseRef} (below : q ∈ s.heap.phrasesBelow stack p) :
    .phrase q ∈ (s.phrasePlan stack p key linkType).resources :=
  SavePlan.mem_resources_of_mem_phrasesBelow savable.sound.closed savable.mem_resources below

/-- A save that returns has followed its plan. -/
theorem followed (apart : (s.phrasePlan stack p key linkType).AllApart) {t : World}
    (run : (saveAnew platform stack (.phrase p) parent key linkType).run s = .ok () t) :
    (s.phrasePlan stack p key linkType).Followed platform
        (s.phrasePlan stack p key linkType).arrivals t ∧
      (s.phrasePlan stack p key linkType).Stored (s.kb.getNodeById parent)
        (rootCall (.phrase p) key linkType) t.kb ∧
      (s.phrasePlan stack p key linkType).AllPass platform := by
  rcases outcome_saveAnew platform parent savable.sound savable.closed savable.member savable.deep with
    ⟨t', run', progress, -⟩ | ⟨-, -, failed⟩
  · cases run'.symm.trans run
    exact ⟨progress.followed, progress.stored (SavePlan.nodup_resources s stack _)
      (s.kb.getNodeById parent).2 rfl, fun e arrival => progress.passes e arrival List.not_mem_nil⟩
  · obtain ⟨failure, t', run'⟩ := failed apart
    cases run'.symm.trans run

theorem exists_run (apart : (s.phrasePlan stack p key linkType).AllApart)
    (pass : (s.phrasePlan stack p key linkType).AllPass platform) :
    ∃ t, (saveAnew platform stack (.phrase p) parent key linkType).run s = .ok () t := by
  rcases outcome_saveAnew platform parent savable.sound savable.closed savable.member savable.deep with
    ⟨t, run, -⟩ | ⟨bad, -⟩
  · exact ⟨t, run⟩
  · exact absurd ⟨apart, pass⟩ bad

/-- A phrase is not a sub-phrase of its own. -/
theorem single {q : PhraseRef} (below : q ∈ s.heap.phrasesBelow stack p) :
    q ∉ (s.heap.phrase q).phrases :=
  Heap.not_mem_phrases savable.tree.bounded savable.tree.distinct below

/-- The tree is restored exactly when what is read is what was written. -/
theorem roundTrips_iff (apart : (s.phrasePlan stack p key linkType).AllApart) :
    PhraseRoundTrips platform stack s p parent key linkType ↔
    ∃ t, (saveAnew platform stack (.phrase p) parent key linkType).run s = .ok () t ∧
      t.kb.loadChild platform parent key linkType =
        some ⟨(s.phrasePlan stack p key linkType).nodeOf (.phrase p), s.heap.exported (.phrase p)⟩ ∧
      ∀ q ∈ s.heap.phrasesBelow stack p,
        PhraseReadable platform (s.phrasePlan stack p key linkType) t.kb q := by
  refine exists_congr fun t => and_congr_right fun run => ?_
  obtain ⟨followed, stored, -⟩ := savable.followed apart run
  constructor
  · intro trips
    -- a fresh process is the knowledge base without objects
    let w₀ : World := { t with id2object := fun _ => none }
    obtain ⟨p', w, loaded, restored⟩ := trips w₀ ⟨rfl, fun _ => rfl⟩
    have fresh : FreshProcess t w₀ := ⟨rfl, fun _ => rfl⟩
    have revealed := reveals_of_load followed savable.sound.closed stored savable.mem_resources
      savable.tree.bounded savable.tree.distinct parent key linkType w₀ p' w w rfl fresh.registered
      (fun _ _ => rfl) loaded (.refl w) restored
    refine ⟨?_, fun q below =>
      revealed.readable q (List.mem_flatMap.mpr ⟨p, List.mem_singleton.mpr rfl, below⟩)⟩
    cases revealed.found with
    | cons found _ => exact found
  · rintro ⟨found, readable⟩ w₀ fresh
    have restores := restores_of_readable followed savable.sound.closed savable.mem_resources
      savable.tree.bounded savable.tree.distinct readable
    obtain ⟨p', w, loaded, -, restored⟩ := restores parent key linkType w₀ fresh.kb fresh.registered
      (fun r _ => fresh.empty _) (fresh.kb ▸ found)
    exact ⟨p', w, loaded, restored w (.refl w)⟩

/-- Where the condition holds, what is read is what was written. -/
theorem readable (restorable : TreeRestorable platform stack s p parent key linkType) {kb : KB}
    (stored : (s.phrasePlan stack p key linkType).Stored (s.kb.getNodeById parent)
      (rootCall (.phrase p) key linkType) kb) {q : PhraseRef}
    (below : q ∈ s.heap.phrasesBelow stack p) :
    PhraseReadable platform (s.phrasePlan stack p key linkType) kb q where
  accepted := restorable.accepted q below
  sentenceIndex := restorable.sentenceIndex q below
  contents := restorable.contents q below
  concepts := (stored.concepts_iff (savable.mem_resources_of_below below) savable.sound.closed).mpr
    (restorable.conceptTexts q below)
  keys := by
    obtain ⟨keys, perm, enumerated⟩ := stored.childKeys_phrases platform
      (savable.mem_resources_of_below below) (savable.single below) (restorable.texts q below)
    rw [enumerated]
    exact restorable.ordered q below keys perm
  found q' child := stored.loadChild_phrase (savable.mem_resources_of_below below)
    savable.sound.closed child (savable.single below) (restorable.texts q below)
    (restorable.own q below)

/-- Where the tree is restored in whatever order, the condition holds. -/
theorem restorable (apart : (s.phrasePlan stack p key linkType).AllApart)
    (always : PhraseAlwaysRoundTrips platform stack s p parent key linkType) :
    TreeRestorable platform stack s p parent key linkType := by
  -- what is read in a given order
  have reads : ∀ order order_perm, ∃ kb,
      (s.phrasePlan stack p key linkType).Stored (s.kb.getNodeById parent)
        (rootCall (.phrase p) key linkType) kb ∧
      (s.phrasePlan stack p key linkType).AllPass platform ∧
      kb.loadChild (platform.withOrder order order_perm) parent key linkType =
        some ⟨(s.phrasePlan stack p key linkType).nodeOf (.phrase p), s.heap.exported (.phrase p)⟩ ∧
      ∀ q ∈ s.heap.phrasesBelow stack p,
        PhraseReadable (platform.withOrder order order_perm) (s.phrasePlan stack p key linkType) kb q := by
    intro order order_perm
    obtain ⟨t, run, found, readable⟩ := (savable.roundTrips_iff apart).mp (always order order_perm)
    obtain ⟨-, stored, pass⟩ := savable.followed apart run
    exact ⟨t.kb, stored, pass, found, readable⟩
  obtain ⟨kb, stored, pass, -, readable⟩ := reads platform.order platform.order_perm
  have texts : ∀ q ∈ s.heap.phrasesBelow stack p, ((s.heap.phrase q).phrases.map fun q' =>
      (s.phrasePlan stack p key linkType).textOf (.phrase q')).Nodup := fun q below =>
    stored.nodup_texts_of_childKeys (savable.mem_resources_of_below below) (savable.single below)
      (readable q below).keys
  refine ⟨pass, ?_, fun q below => (readable q below).accepted,
    fun q below => (readable q below).sentenceIndex, fun q below => (readable q below).contents,
    fun q below => (stored.concepts_iff (savable.mem_resources_of_below below)
      savable.sound.closed).mp (readable q below).concepts, texts, ?_, ?_⟩
  · -- let a relationship that was there before be enumerated first
    intro rel listed same
    subst same
    obtain ⟨kb, stored, -, found, -⟩ := reads _ (Platform.favouring fun other => other = rel).order_perm
    have favoured :
      (platform.withOrder _ (Platform.favouring fun other => other = rel).order_perm).order =
        (Platform.favouring fun other => other = rel).order := rfl
    exact stored.loadChild_ne savable.present listed favoured _ _ found
  · -- let a relationship to the phrase itself be enumerated first
    intro q below q' child rel planned type ends same
    obtain ⟨kb, stored, -, -, readable⟩ :=
      reads _ (Platform.favouring fun other => other = rel).order_perm
    have member : .phrase q ∈ (s.phrasePlan stack p key linkType).resources :=
      savable.mem_resources_of_below below
    have favoured :
      (platform.withOrder _ (Platform.favouring fun other => other = rel).order_perm).order =
        (Platform.favouring fun other => other = rel).order := rfl
    have found := (readable q below).found q' child
    rw [← same, stored.loadChild_self member planned type ends favoured] at found
    have here := congrArg Node.id (Option.some.inj found)
    cases SavePlan.nodeOf_injOn member here
    exact savable.single below child
  · -- let the sub-phrases be enumerated so that the map is filled as it is wanted
    intro q below keys perm
    obtain ⟨target, arranged⟩ := SavePlan.exists_order_of_perm
      (savable.mem_resources_of_below below) (savable.single below) (texts q below) perm
    obtain ⟨kb, stored, -, -, readable⟩ := reads (arrange target) (arrange_perm target)
    have keyOrder := arranged (platform.withOrder (arrange target) (arrange_perm target)) kb rfl stored
    exact keyOrder.symm.trans (readable q below).keys

end TreeSavable

/-- A tree of phrases whose resources are told apart is restored by saving and loading it, in
whatever order the store returns relationships, exactly when the condition holds: for every
platform, every state, every tree and every place in the knowledge base. -/
theorem phraseRoundTrips_iff (platform : Platform) (stack : ℕ) (s : World) (p : PhraseRef)
    (parent : Option ℕ) (key linkType : String) (objects : List ResourceRef)
    (savable : TreeSavable s stack p parent objects)
    (apart : (s.phrasePlan stack p key linkType).AllApart) :
    PhraseAlwaysRoundTrips platform stack s p parent key linkType ↔
      TreeRestorable platform stack s p parent key linkType := by
  constructor
  · exact savable.restorable apart
  · intro restorable order order_perm
    have condition : TreeRestorable (platform.withOrder order order_perm) stack s p parent key
        linkType :=
      { restorable with }
    obtain ⟨t, run⟩ := savable.exists_run apart condition.pass
    obtain ⟨-, stored, -⟩ := savable.followed apart run
    refine (savable.roundTrips_iff apart).mpr ⟨t, run, ?_, fun q below =>
      savable.readable condition stored below⟩
    exact stored.loadChild_root savable.present savable.mem_resources rfl condition.new

end RoundTrip

/-! ### A phrase of one word, and one that repeats a word -/

/-- A phrase about a user, of one word. -/
def userPhrase : World where
  heap :=
    { uris := .ofList [{ name := "userPhrase" }, { name := "userEmptyPhrase" }, { name := "user" }]
      concepts := .ofList [{ phrases := some 0, content := ⟨"user", "user"⟩, uri := 2 }]
      phraseLines := .ofList [{ frames := .ofList [(0, 0)] }]
      phrases := .ofList [{ phrases := [1], concepts := [0], uri := 0, text := "user" },
        { uri := 1, text := "user" }] }
  kb := .onlyRoot
  id2object _ := none

theorem userPhrase_savable : TreeSavable userPhrase 4 0 (some KB.rootId)
    [.phrase 0, .phrase 1, .concept 0] where
  closed := by
    unfold DepthFirst.Closed
    decide +kernel
  member := List.mem_cons_self
  valid r member := by
    rcases member with _ | ⟨_, _ | ⟨_, _ | ⟨_, ⟨⟩⟩⟩⟩
    all_goals exact Or.inl rfl
  deep := by decide
  tree := ⟨by simp [Heap.HasHeight]; decide +kernel, by decide +kernel⟩
  present id same := by
    cases same
    exact List.mem_singleton.mpr rfl

theorem userPhrase_apart :
    (userPhrase.phrasePlan 4 0 "testUserPhrase" defaultLinkName).AllApart := by
  unfold SavePlan.AllApart SavePlan.Apart
  decide +kernel

/-- The phrase of one word is restored. -/
theorem userPhrase_restored :
    PhraseAlwaysRoundTrips .plain 4 userPhrase 0 (some KB.rootId) "testUserPhrase" defaultLinkName := by
  refine (phraseRoundTrips_iff .plain 4 userPhrase 0 (some KB.rootId) "testUserPhrase" defaultLinkName
    _ userPhrase_savable userPhrase_apart).mpr ?_
  have phrases : userPhrase.heap.phrasesBelow 4 0 = [0, 1] := by decide +kernel
  constructor
  case pass => exact fun _ _ _ _ _ _ => rfl
  case new => decide +kernel
  case accepted => exact fun _ _ => rfl
  case sentenceIndex => decide +kernel
  case contents => decide +kernel
  case conceptTexts => decide +kernel
  case texts => decide +kernel
  case own => decide +kernel
  case ordered =>
    intro q below keys perm
    rw [phrases] at below
    rcases List.mem_pair.mp below with rfl | rfl
    · exact List.perm_singleton.mp perm
    · exact List.perm_nil.mp perm

/-- The words of `AnnotatedPhrase.split("very very", "twice")`. -/
def veryVery : World where
  heap :=
    { uris := .ofList [{ name := "twice" }, { name := "veryEmptyPhrase" },
        { name := "veryEmptyPhrase" }]
      phrases := .ofList [{ phrases := [1, 2], uri := 0, text := "very very" },
        { uri := 1, text := "very" }, { uri := 2, text := "very" }] }
  kb := .onlyRoot
  id2object _ := none

/-- Of a word that is repeated, one is loaded. -/
theorem repeated_word_lost :
    ¬ PhraseAlwaysRoundTrips .plain 4 veryVery 0 (some KB.rootId) "twice" defaultLinkName := by
  intro always
  obtain ⟨t, saved, loads⟩ := always _ Platform.plain.order_perm
  obtain ⟨p', w, loaded, -, children⟩ := loads { t with id2object := fun _ => none } ⟨rfl, fun _ => rfl⟩
  -- the numbers of sub-phrases before saving and after loading
  have lengths : (match (saveAnew .plain 4 (.phrase 0) (some KB.rootId) "twice" defaultLinkName).run
      veryVery with
    | .ok _ t => ((t.heap.phrase 0).phrases.length,
        match (AnnotatedPhrase.load .plain 4 (some KB.rootId) "twice" defaultLinkName).run
          { t with id2object := fun _ => none } with
        | .ok p' w => (w.heap.phrase p').phrases.length
        | .error _ _ => 0)
    | .error _ _ => (0, 0)) = (2, 1) := by decide +kernel
  have run : (saveAnew .plain 4 (.phrase 0) (some KB.rootId) "twice" defaultLinkName).run veryVery =
    .ok () t := saved
  have run' : (AnnotatedPhrase.load .plain 4 (some KB.rootId) "twice" defaultLinkName).run
    { t with id2object := fun _ => none } = .ok p' w := loaded
  simp only [run, run', Prod.mk.injEq] at lengths
  have same := children.length_eq
  omega

end ThinkingUnderstanding
