import ThinkingUnderstanding.Persistence.PhraseTrees

/-!
# Loading a tree of phrases

A load of a tree meets every phrase once, so none is found in the table of objects. It restores
the tree exactly when, at each phrase, the keys of the sub-phrases are their texts, in order, each
of which is found to lead to the node of the sub-phrase, and the concepts that are read are those
of the phrase.

The state in which the tree is compared with the saved one is any state that comes after the load,
in which objects have been added: the phrases above are still being made when a sub-phrase is
complete.

## Main definitions

* `PhraseReadable` — what is read at the node of a phrase is what was written

## Main results

* `loadsGrow` — a load creates objects and changes none
* `restores_of_readable` — a load of readable phrases restores the tree
* `reveals_of_load` — the phrases of a tree that is restored are readable
-/

namespace ThinkingUnderstanding

open Math Semantics

/-- Loads that return have created objects and changed none. -/
def LoadsGrow (load : Loader PhraseRef) : Prop :=
  ∀ parent key linkType w p w', (load parent key linkType).run w = .ok p w' → w.Registered →
    w.Adds 0 w' ∧ w'.Registered

theorem World.adds_after {w w₂ z : World} {ps : List PhraseRef}
    (after : (w.finishPhrase w₂ ps).Adds w.heap.phrases.size z) :
    w₂.Adds (w.heap.phrases.size + 1) z :=
  (World.adds_modifyPhrase w₂ w.heap.phrases.size
    (f := fun phrase => { phrase with phrases := ps }) fun _ => rfl).trans (after.mono (Nat.le_succ _))

section Grow

variable {platform : Platform} {load : Loader PhraseRef} (grow : LoadsGrow load)

include grow

theorem LoadsGrow.mapM {id : ℕ} {linkType : String} {keys : List String} {w w' : World}
    {ps : List PhraseRef}
    (run : (keys.mapM fun key => load (some id) key linkType).run w = .ok ps w')
    (registered : w.Registered) : w.Adds 0 w' ∧ w'.Registered := by
  induction keys generalizing w ps with
  | nil =>
    cases run
    exact ⟨.refl _, registered⟩
  | cons key keys ih =>
    rw [List.mapM_cons, run_bind_eq_ok_iff] at run
    obtain ⟨p, w₁, first, run⟩ := run
    obtain ⟨ps', w₂, rest, ended⟩ := run_bind_eq_ok_iff.mp run
    cases ended
    obtain ⟨adds, registered₁⟩ := grow _ _ _ _ _ _ first registered
    obtain ⟨adds', registered₂⟩ := ih rest registered₁
    exact ⟨adds.trans adds', registered₂⟩

variable {w w₁ w₂ : World} {map : Node} {cs : List ConceptRef} {ps : List PhraseRef}
  (made : PhraseMade platform load w map cs w₁ ps w₂)

include made

omit grow in
/-- The state in which the sub-phrases are loaded. -/
theorem PhraseMade.adds_copied :
    w.Adds 0 (w₁.modifyPhrase w.heap.phrases.size fun phrase => { phrase with concepts := cs }) :=
  ((w.adds_beginPhrase platform map).trans made.adds).modifyPhrase le_rfl _

omit grow in
theorem PhraseMade.registered_copied (registered : w.Registered) :
    (w₁.modifyPhrase w.heap.phrases.size fun phrase =>
      { phrase with concepts := cs }).Registered := by
  have begun := registered.beginPhrase platform map
  exact (begun.adds made.adds made.objects).modifyPhrase _ fun _ => rfl

omit grow in
theorem PhraseMade.inside_copied :
    w.heap.phrases.size < (w₁.modifyPhrase w.heap.phrases.size fun phrase =>
      { phrase with concepts := cs }).heap.phrases.size := by
  refine Nat.lt_of_lt_of_le ?_ (Arena.size_le_size_modify ..)
  rw [made.phrases, w.size_beginPhrase]
  exact Nat.lt_succ_self _

theorem PhraseMade.adds_children (registered : w.Registered) :
    (w₁.modifyPhrase w.heap.phrases.size fun phrase => { phrase with concepts := cs }).Adds 0 w₂ :=
  (grow.mapM made.children (made.registered_copied registered)).1

theorem PhraseMade.adds_finish (registered : w.Registered) :
    w.Adds 0 (w.finishPhrase w₂ ps) ∧ (w.finishPhrase w₂ ps).Registered := by
  obtain ⟨adds, registered'⟩ := grow.mapM made.children (made.registered_copied registered)
  exact ⟨(made.adds_copied.trans adds).modifyPhrase le_rfl _,
    registered'.modifyPhrase _ fun _ => rfl⟩

theorem PhraseMade.inside_finish (registered : w.Registered) :
    w.heap.phrases.size < (w.finishPhrase w₂ ps).heap.phrases.size := by
  have copied := made.inside_copied
  have loaded := (made.adds_children grow registered).size
  have finished : w₂.heap.phrases.size ≤ (w.finishPhrase w₂ ps).heap.phrases.size :=
    Arena.size_le_size_modify ..
  omega

/-- The phrase that has been made. -/
theorem PhraseMade.phrase_finish (registered : w.Registered) :
    (w.finishPhrase w₂ ps).heap.phrase w.heap.phrases.size =
      { uri := w.heap.uris.size
        probability := .ofMap map
        text := map.properties.text.getD ""
        index := map.properties.index.getD "0.0"
        concepts := cs
        phrases := ps } := by
  have adds := made.adds_children grow registered
  have begun : w₁.heap.phrase w.heap.phrases.size =
      (w.beginPhrase platform map).heap.phrase w.heap.phrases.size := by
    unfold Heap.phrase
    rw [made.phrases]
  rw [World.finishPhrase, World.phrase_modifyPhrase, if_pos rfl,
    adds.phrase _ (Nat.zero_le _) made.inside_copied, World.phrase_modifyPhrase, if_pos rfl, begun,
    w.phrase_beginPhrase]

theorem PhraseMade.uid_finish (registered : w.Registered) :
    (w.finishPhrase w₂ ps).heap.uid (.phrase w.heap.phrases.size) = toString map.id := by
  have adds := (w.adds_beginPhrase platform map).trans made.adds
  have uris : (w.beginPhrase platform map).heap.uris.Extends (w.finishPhrase w₂ ps).heap.uris :=
    made.adds.uris.trans (made.adds_children grow registered).uris
  change ((w.finishPhrase w₂ ps).heap.uri ((w.finishPhrase w₂ ps).heap.phrase _).uri).uid = _
  rw [made.phrase_finish grow registered]
  have begun := w.uid_beginPhrase platform map
  change ((w.beginPhrase platform map).heap.uri
    ((w.beginPhrase platform map).heap.phrase w.heap.phrases.size).uri).uid = _ at begun
  rw [w.phrase_beginPhrase] at begun
  rw [← begun]
  exact congrArg KnowledgeURI.uid (uris.get _ (w.uri_beginPhrase platform map))

theorem PhraseMade.uri_finish (registered : w.Registered) :
    ((w.finishPhrase w₂ ps).heap.phrase w.heap.phrases.size).uri <
      (w.finishPhrase w₂ ps).heap.uris.size := by
  rw [made.phrase_finish grow registered]
  have uris : (w.beginPhrase platform map).heap.uris.Extends (w.finishPhrase w₂ ps).heap.uris :=
    made.adds.uris.trans (made.adds_children grow registered).uris
  exact (w.uri_beginPhrase platform map).trans_le uris.size

/-- The concepts are not changed once they have been copied. -/
theorem PhraseMade.adds_copies {z : World} (registered : w.Registered)
    (after : (w.finishPhrase w₂ ps).Adds w.heap.phrases.size z) :
    w₁.Adds (w.heap.phrases.size + 1) z := by
  have assigned := World.adds_modifyPhrase w₁ w.heap.phrases.size
    (f := fun phrase => { phrase with concepts := cs }) fun _ => rfl
  exact (assigned.trans ((made.adds_children grow registered).mono (Nat.zero_le _))).trans
    (World.adds_after after)

end Grow

/-- The sub-phrases are saved below a phrase, each under its text. -/
theorem Heap.mem_children_phrase (heap : Heap) {q q' : PhraseRef}
    (member : q' ∈ (heap.phrase q).phrases) :
    Heap.child phrasesLinkName (.phrase q') ∈ heap.children (.phrase q) :=
  List.mem_append_left _ (List.mem_map_of_mem member)

theorem Heap.mem_children_concept (heap : Heap) {q : PhraseRef} {c : ConceptRef}
    (member : c ∈ (heap.phrase q).concepts) :
    Heap.child conceptLinkName (.concept c) ∈ heap.children (.phrase q) :=
  List.mem_append_right _ (List.mem_map_of_mem member)

theorem Heap.key_of_mem_phraseChildren {heap : Heap} {q : PhraseRef} {child : Child}
    (member : child ∈ heap.phraseChildren q) : child.key = .resourceURI := by
  rcases List.mem_append.mp member with edge | edge
  · obtain ⟨_, -, rfl⟩ := List.mem_map.mp edge
    rfl
  · obtain ⟨_, -, rfl⟩ := List.mem_map.mp edge
    rfl

theorem loadsGrow (platform : Platform) (stack : ℕ) :
    LoadsGrow (AnnotatedPhrase.load platform stack) := by
  induction stack with
  | zero => exact fun _ _ _ _ _ _ run => nomatch run
  | succ stack ih =>
    intro parent key linkType w p w' run registered
    obtain ⟨map, -, ⟨-, rfl⟩ | ⟨cs, w₁, ps, w₂, made, -, rfl⟩⟩ := phraseMade_of_run run
    · exact ⟨.refl w', registered⟩
    · exact made.adds_finish ih registered

/-- What is read at the node of a phrase is what was written there. -/
structure PhraseReadable (platform : Platform) (plan : SavePlan) (kb : KB) (q : PhraseRef) :
    Prop where
  accepted : platform.acceptsURI (KnowledgeURI.ofMap platform
    ⟨plan.nodeOf (.phrase q), plan.heap.exported (.phrase q)⟩).format
  sentenceIndex : (plan.heap.phrase q).sentenceIndex = (plan.heap.phrase q).index
  contents : ∀ c ∈ (plan.heap.phrase q).concepts,
    (plan.heap.concept c).content.value = (plan.heap.concept c).content.name
  concepts : ∃ cs : List ConceptRef, cs.Perm (plan.heap.phrase q).concepts ∧
    kb.loadChildrenList platform (some (plan.nodeOf (.phrase q))) conceptLinkName =
      cs.map fun c => ⟨plan.nodeOf (.concept c), plan.heap.exported (.concept c)⟩
  keys : kb.childKeys platform (some (plan.nodeOf (.phrase q))) phrasesLinkName =
    (plan.heap.phrase q).phrases.map fun q' => plan.textOf (.phrase q')
  found : ∀ q' ∈ (plan.heap.phrase q).phrases,
    kb.loadChild platform (some (plan.nodeOf (.phrase q))) (plan.textOf (.phrase q'))
      phrasesLinkName = some ⟨plan.nodeOf (.phrase q'), plan.heap.exported (.phrase q')⟩

section Restore

variable {platform : Platform} {plan : SavePlan} {t : World}

theorem SavePlan.Followed.concept_eq (followed : plan.Followed platform plan.arrivals t)
    (c : ConceptRef) : t.heap.concept c = plan.heap.concept c := by
  rw [followed.graph.objects]
  rfl

theorem SavePlan.Followed.phrase_eq (followed : plan.Followed platform plan.arrivals t)
    (q : PhraseRef) : t.heap.phrase q = plan.heap.phrase q := by
  rw [followed.graph.objects]
  rfl

theorem SavePlan.Followed.name_eq (followed : plan.Followed platform plan.arrivals t) (u : UriRef) :
    (t.heap.uri u).name = (plan.heap.uri u).name := by
  rw [followed.graph.fields u]

variable (followed : plan.Followed platform plan.arrivals t)

include followed

/-- A concept that is made of the node of another one has its data. -/
theorem conceptCopied_of_madeOf {z : World} {c c' : ConceptRef}
    (member : .concept c ∈ plan.resources)
    (value : (plan.heap.concept c).content.value = (plan.heap.concept c).content.name)
    (made : Concept.MadeOf platform z
      ⟨plan.nodeOf (.concept c), plan.heap.exported (.concept c)⟩ c') : ConceptCopied t z c c' where
  identity := by
    rw [followed.numbered _ member]
    exact congrArg KnowledgeURI.uid made.uri
  name := by
    rw [made.uri, followed.concept_eq, followed.name_eq]
    rfl
  content := by
    rw [made.content, followed.concept_eq]
    exact congrArg (fun value => KnowledgeString.mk value _) value.symm
  probability := by
    rw [made.probability, followed.concept_eq]
    rfl

/-- What was written at the node of a phrase has been read. -/
theorem phraseCopied_of_made {load : Loader PhraseRef} (grow : LoadsGrow load)
    (closed : DepthFirst.Closed plan.heap.children Child.resource plan.resources) {q : PhraseRef}
    (member : .phrase q ∈ plan.resources) (readable : PhraseReadable platform plan t.kb q)
    {w w₁ w₂ z : World} {cs : List ConceptRef} {ps : List PhraseRef} (kb : w.kb = t.kb)
    (registered : w.Registered)
    (made : PhraseMade platform load w
      ⟨plan.nodeOf (.phrase q), plan.heap.exported (.phrase q)⟩ cs w₁ ps w₂)
    (after : (w.finishPhrase w₂ ps).Adds w.heap.phrases.size z) :
    PhraseCopied t z q w.heap.phrases.size ∧ (z.heap.phrase w.heap.phrases.size).phrases = ps := by
  -- what is done after the load leaves the phrase as it was made
  have same : z.heap.phrase w.heap.phrases.size = _ :=
    (after.phrase _ le_rfl (made.inside_finish grow registered)).trans
      (made.phrase_finish grow registered)
  obtain ⟨cs', perm, listed⟩ := readable.concepts
  refine ⟨⟨?_, ?_, ?_, cs', ?_, ?_⟩, ?_⟩
  · rw [after.uid_phrase (made.inside_finish grow registered) (made.uri_finish grow registered),
      made.uid_finish grow registered, followed.numbered _ member]
  · rw [same, followed.phrase_eq]
    rfl
  · rw [same, followed.phrase_eq, readable.sentenceIndex]
    rfl
  · rw [followed.phrase_eq]
    exact perm
  · have copies := made.copies
    rw [kb, listed, List.forall₂_map_left_iff] at copies
    rw [same]
    have own : ∀ c ∈ cs', c ∈ (plan.heap.phrase q).concepts := fun c inside => perm.mem_iff.mp inside
    refine ((List.forall₂_and_left _ _).mpr ⟨own, copies⟩).imp fun c c' ⟨inside, copy⟩ => ?_
    exact conceptCopied_of_madeOf followed (closed _ member _ (plan.heap.mem_children_concept inside))
      (readable.contents c inside) (copy.adds (made.adds_copies grow registered after))
  · rw [same]

end Restore

/-! ### Readable phrases are restored -/

namespace SavePlan

variable {plan : SavePlan} {ps qs : List PhraseRef} {w w₁ w' : World}

/-- None of the phrases has been loaded. -/
def Unloaded (plan : SavePlan) (qs : List PhraseRef) (w : World) : Prop :=
  ∀ r ∈ qs, w.id2object (plan.nodeOf (.phrase r)) = none

/-- Only nodes of the phrases have been registered. -/
def RegistersOnly (plan : SavePlan) (qs : List PhraseRef) (w w' : World) : Prop :=
  ∀ id, (∀ r ∈ qs, plan.nodeOf (.phrase r) ≠ id) → w'.id2object id = w.id2object id

theorem Unloaded.after (unloaded : plan.Unloaded (ps ++ qs) w) (registers : plan.RegistersOnly ps w w')
    (disjoint : ps.Disjoint qs) (inside : ∀ r ∈ qs, .phrase r ∈ plan.resources) :
    plan.Unloaded qs w' := by
  intro r member
  rw [registers, unloaded r (List.mem_append_right _ member)]
  intro r' member' same
  cases nodeOf_injOn (inside r member) same.symm
  exact disjoint member' member

theorem RegistersOnly.append (first : plan.RegistersOnly ps w w₁)
    (second : plan.RegistersOnly qs w₁ w') : plan.RegistersOnly (ps ++ qs) w w' := by
  intro id other
  rw [second id fun r member => other r (List.mem_append_right _ member),
    first id fun r member => other r (List.mem_append_left _ member)]

section Begin

variable {platform : Platform} {q : PhraseRef} {properties : Properties}
  (objects : w₁.id2object =
    (w.beginPhrase platform ⟨plan.nodeOf (.phrase q), properties⟩).id2object)
include objects

/-- When a phrase is registered, its sub-phrases have still not been loaded. -/
theorem Unloaded.begin (unloaded : plan.Unloaded (q :: qs) w) (member : .phrase q ∈ plan.resources)
    (single : q ∉ qs) : plan.Unloaded qs w₁ := by
  intro r below
  have other : plan.nodeOf (.phrase r) ≠ plan.nodeOf (.phrase q) := fun same =>
    single (ResourceRef.phrase.inj (nodeOf_injOn member same.symm) ▸ below)
  rw [objects]
  exact (Function.update_of_ne other _ _).trans (unloaded r (List.mem_cons_of_mem q below))

theorem RegistersOnly.begin (registers : plan.RegistersOnly qs w₁ w') :
    plan.RegistersOnly (q :: qs) w w' := by
  intro id other
  have apart : id ≠ plan.nodeOf (.phrase q) := (other q List.mem_cons_self).symm
  rw [registers id fun r below => other r (List.mem_cons_of_mem q below), objects]
  exact Function.update_of_ne apart _ _

end Begin

/-- All phrases of a tree are saved with its first one. -/
theorem mem_resources_of_mem_phrasesBelow
    (closed : DepthFirst.Closed plan.heap.children Child.resource plan.resources) {height : ℕ}
    {q r : PhraseRef} (member : .phrase q ∈ plan.resources)
    (below : r ∈ plan.heap.phrasesBelow height q) : .phrase r ∈ plan.resources := by
  induction height generalizing q with
  | zero => cases below
  | succ height ih =>
    rcases List.mem_cons.mp below with rfl | deeper
    · exact member
    · obtain ⟨q', child, below⟩ := List.mem_flatMap.mp deeper
      exact ih (closed _ member _ (plan.heap.mem_children_phrase child)) below

end SavePlan

/-- A load restores the tree below a phrase, when it finds the node of the phrase. -/
def Restores (platform : Platform) (plan : SavePlan) (t : World) (height : ℕ)
    (load : Loader PhraseRef) (q : PhraseRef) : Prop :=
  ∀ parent key linkType w, w.kb = t.kb → w.Registered →
    plan.Unloaded (plan.heap.phrasesBelow height q) w →
    w.kb.loadChild platform parent key linkType =
      some ⟨plan.nodeOf (.phrase q), plan.heap.exported (.phrase q)⟩ →
    ∃ q' w', (load parent key linkType).run w = .ok q' w' ∧
      plan.RegistersOnly (plan.heap.phrasesBelow height q) w w' ∧
      ∀ z, w'.Adds w.heap.phrases.size z → PhraseRestored t z height q q'

section Readable

variable {platform : Platform} {plan : SavePlan} {t : World} {height : ℕ} {load : Loader PhraseRef}

/-- The phrases that have been loaded between two states are those that were saved. -/
structure AllRestored (plan : SavePlan) (t : World) (height : ℕ) (qs : List PhraseRef) (w : World)
    (ps : List PhraseRef) (w' : World) : Prop where
  registers : plan.RegistersOnly (qs.flatMap (plan.heap.phrasesBelow height)) w w'
  restored : ∀ z, w'.Adds w.heap.phrases.size z → List.Forall₂ (PhraseRestored t z height) qs ps

/-- The sub-phrases are restored, one by one. -/
theorem Restores.mapM (grow : LoadsGrow load) {qs : List PhraseRef} {id : ℕ} {linkType : String}
    (restores : ∀ q ∈ qs, Restores platform plan t height load q)
    (distinct : (qs.flatMap (plan.heap.phrasesBelow height)).Nodup)
    (inside : ∀ r ∈ qs.flatMap (plan.heap.phrasesBelow height), .phrase r ∈ plan.resources)
    (found : ∀ q ∈ qs, t.kb.loadChild platform (some id) (plan.textOf (.phrase q)) linkType =
      some ⟨plan.nodeOf (.phrase q), plan.heap.exported (.phrase q)⟩)
    {w : World} (kb : w.kb = t.kb) (registered : w.Registered)
    (unloaded : plan.Unloaded (qs.flatMap (plan.heap.phrasesBelow height)) w) :
    ∃ ps w', ((qs.map fun q => plan.textOf (.phrase q)).mapM fun key =>
        load (some id) key linkType).run w = .ok ps w' ∧ AllRestored plan t height qs w ps w' := by
  induction qs generalizing w with
  | nil => exact ⟨[], w, rfl, fun _ _ => rfl, fun _ _ => .nil⟩
  | cons q qs ih =>
    rw [List.flatMap_cons] at distinct inside unloaded
    have rest := (List.nodup_append.mp distinct).2.1
    obtain ⟨q', w₁, first, registers, restored⟩ := restores q List.mem_cons_self _ _ linkType w kb
      registered (fun r member => unloaded r (List.mem_append_left _ member))
      (kb ▸ found q List.mem_cons_self)
    obtain ⟨adds, registered₁⟩ := grow _ _ _ _ _ _ first registered
    have unloaded₁ := unloaded.after registers (List.disjoint_of_nodup_append distinct)
      fun r member => inside r (List.mem_append_right _ member)
    obtain ⟨ps, w', run, ⟨registers', restored'⟩⟩ := ih
      (fun q member => restores q (List.mem_cons_of_mem _ member)) rest
      (fun r member => inside r (List.mem_append_right _ member))
      (fun q member => found q (List.mem_cons_of_mem _ member)) (adds.kb.trans kb) registered₁ unloaded₁
    refine ⟨q' :: ps, w', ?_, registers.append registers', fun z after => .cons ?_ ?_⟩
    · rw [List.map_cons, List.mapM_cons]
      exact run_bind_eq_ok_iff.mpr ⟨q', w₁, first, run_bind_eq_ok_iff.mpr ⟨ps, w', run, rfl⟩⟩
    · -- the phrase is not changed while the others are loaded
      exact restored z (((grow.mapM run registered₁).1.mono (Nat.zero_le _)).trans after)
    · exact restored' z (after.mono adds.size)

/-- A phrase is restored, when its sub-phrases are. -/
theorem Restores.succ (followed : plan.Followed platform plan.arrivals t)
    (closed : DepthFirst.Closed plan.heap.children Child.resource plan.resources)
    (grow : LoadsGrow load) {q : PhraseRef} (member : .phrase q ∈ plan.resources)
    (readable : PhraseReadable platform plan t.kb q)
    (distinct : (plan.heap.phrasesBelow (height + 1) q).Nodup)
    (restores : ∀ q' ∈ (plan.heap.phrase q).phrases, Restores platform plan t height load q') :
    Restores platform plan t (height + 1) (AnnotatedPhrase.loadWith platform load) q := by
  intro parent key linkType w kb registered unloaded found
  obtain ⟨single, rest⟩ := List.nodup_cons.mp distinct
  have inside : ∀ r ∈ plan.heap.phrasesBelow (height + 1) q, .phrase r ∈ plan.resources :=
    fun r below => SavePlan.mem_resources_of_mem_phrasesBelow closed member below
  have new : w.id2object (plan.nodeOf (.phrase q)) = none := unloaded q List.mem_cons_self
  -- the sub-phrases are loaded in whatever state the concepts have been copied
  have children : ∀ (w₁ : World) (cs : List ConceptRef), (w.beginPhrase platform
      ⟨plan.nodeOf (.phrase q), plan.heap.exported (.phrase q)⟩).Adds 0 w₁ →
      w₁.id2object = (w.beginPhrase platform
        ⟨plan.nodeOf (.phrase q), plan.heap.exported (.phrase q)⟩).id2object →
      ∃ ps w₂, (((plan.heap.phrase q).phrases.map fun q' => plan.textOf (.phrase q')).mapM fun key =>
          load (some (plan.nodeOf (.phrase q))) key phrasesLinkName).run
            (w₁.modifyPhrase w.heap.phrases.size fun phrase => { phrase with concepts := cs }) =
              .ok ps w₂ ∧
        AllRestored plan t height (plan.heap.phrase q).phrases
          (w₁.modifyPhrase w.heap.phrases.size fun phrase => { phrase with concepts := cs }) ps w₂ := by
    intro w₁ cs adds objects
    refine Restores.mapM grow restores rest
      (fun r below => inside r (List.mem_cons_of_mem q below)) readable.found (adds.kb.trans kb)
      (((registered.beginPhrase platform _).adds adds objects).modifyPhrase _ fun _ => rfl) ?_
    exact SavePlan.Unloaded.begin objects unloaded member single
  obtain ⟨cs, w₁, ps, w₂, made, run⟩ := exists_phraseMade found readable.accepted new
    fun w₁ cs adds _ objects => by
      obtain ⟨ps, w₂, run, -⟩ := children w₁ cs adds objects
      rw [kb, readable.keys]
      exact ⟨ps, w₂, run⟩
  obtain ⟨ps', w₂', run', ⟨registers, restored⟩⟩ := children w₁ cs made.adds made.objects
  have same := made.children
  rw [kb, readable.keys, run'] at same
  cases same
  refine ⟨w.heap.phrases.size, _, run, SavePlan.RegistersOnly.begin made.objects registers,
    fun z after => ?_⟩
  obtain ⟨copied, phrases⟩ := phraseCopied_of_made followed grow closed member readable kb
    registered made after
  refine ⟨copied, ?_⟩
  rw [followed.phrase_eq, phrases]
  exact restored z ((World.adds_after after).mono made.inside_copied)

theorem restores_of_readable (followed : plan.Followed platform plan.arrivals t)
    (closed : DepthFirst.Closed plan.heap.children Child.resource plan.resources) {q : PhraseRef}
    (member : .phrase q ∈ plan.resources) (bounded : plan.heap.HasHeight height q)
    (distinct : (plan.heap.phrasesBelow height q).Nodup)
    (readable : ∀ r ∈ plan.heap.phrasesBelow height q, PhraseReadable platform plan t.kb r) :
    Restores platform plan t height (AnnotatedPhrase.load platform height) q := by
  induction height generalizing q with
  | zero => exact bounded.elim
  | succ height ih =>
    refine Restores.succ followed closed (loadsGrow platform height) member
      (readable q List.mem_cons_self) distinct fun q' child => ?_
    have below : ∀ r ∈ plan.heap.phrasesBelow height q', r ∈ plan.heap.phrasesBelow (height + 1) q :=
      fun r deeper => List.mem_cons_of_mem q (List.mem_flatMap.mpr ⟨q', child, deeper⟩)
    have sub := (List.nodup_flatMap.mp (List.nodup_cons.mp distinct).2).1 q' child
    exact ih (closed _ member _ (plan.heap.mem_children_phrase child)) (bounded q' child) sub
      fun r deeper => readable r (below r deeper)

end Readable

/-! ### Restored phrases are readable -/

/-- The nodes of phrases have been read by the keys, and those of the trees below them. -/
structure Revealed (platform : Platform) (plan : SavePlan) (t : World) (height : ℕ)
    (parent : Option ℕ) (linkType : String) (keys : List String) (qs : List PhraseRef)
    (w w' : World) : Prop where
  found : List.Forall₂ (fun key q => t.kb.loadChild platform parent key linkType =
    some ⟨plan.nodeOf (.phrase q), plan.heap.exported (.phrase q)⟩) keys qs
  readable : ∀ r ∈ qs.flatMap (plan.heap.phrasesBelow height), PhraseReadable platform plan t.kb r
  registers : plan.RegistersOnly (qs.flatMap (plan.heap.phrasesBelow height)) w w'

/-- A load that restores the tree below a phrase has found what was written. -/
def Reveals (platform : Platform) (plan : SavePlan) (t : World) (height : ℕ)
    (load : Loader PhraseRef) (q : PhraseRef) : Prop :=
  ∀ parent key linkType w q' w' z, w.kb = t.kb → w.Registered →
    plan.Unloaded (plan.heap.phrasesBelow height q) w →
    (load parent key linkType).run w = .ok q' w' → w'.Adds w.heap.phrases.size z →
    PhraseRestored t z height q q' → Revealed platform plan t height parent linkType [key] [q] w w'

section Reveal

variable {platform : Platform} {plan : SavePlan} {t : World} {height : ℕ} {load : Loader PhraseRef}

theorem Revealed.cons {parent : Option ℕ} {linkType key : String} {keys : List String}
    {q : PhraseRef} {qs : List PhraseRef} {w w₁ w' : World}
    (first : Revealed platform plan t height parent linkType [key] [q] w w₁)
    (rest : Revealed platform plan t height parent linkType keys qs w₁ w') :
    Revealed platform plan t height parent linkType (key :: keys) (q :: qs) w w' where
  found := by
    cases first.found with
    | cons here => exact .cons here rest.found
  readable r below := by
    rw [List.flatMap_cons, List.mem_append] at below
    rcases below with here | later
    · exact first.readable r (by simpa using here)
    · exact rest.readable r later
  registers := by
    have single := first.registers
    rw [List.flatMap_singleton] at single
    exact single.append rest.registers

theorem Reveals.mapM (grow : LoadsGrow load) {keys : List String} {qs ps : List PhraseRef} {id : ℕ}
    {linkType : String} (reveals : ∀ q ∈ qs, Reveals platform plan t height load q)
    (distinct : (qs.flatMap (plan.heap.phrasesBelow height)).Nodup)
    (inside : ∀ r ∈ qs.flatMap (plan.heap.phrasesBelow height), .phrase r ∈ plan.resources)
    {w w' z : World} (kb : w.kb = t.kb) (registered : w.Registered)
    (unloaded : plan.Unloaded (qs.flatMap (plan.heap.phrasesBelow height)) w)
    (run : (keys.mapM fun key => load (some id) key linkType).run w = .ok ps w')
    (after : w'.Adds w.heap.phrases.size z)
    (restored : List.Forall₂ (PhraseRestored t z height) qs ps) :
    Revealed platform plan t height (some id) linkType keys qs w w' := by
  induction keys generalizing w qs ps with
  | nil =>
    cases run
    cases restored
    exact ⟨.nil, fun _ none => (nomatch none), fun _ _ => rfl⟩
  | cons key keys ih =>
    rw [List.mapM_cons, run_bind_eq_ok_iff] at run
    obtain ⟨q', w₁, first, run⟩ := run
    obtain ⟨ps', w₂, rest, ended⟩ := run_bind_eq_ok_iff.mp run
    cases ended
    cases restored with
    | cons here later =>
      rename_i q qs
      rw [List.flatMap_cons] at distinct inside unloaded
      obtain ⟨adds, registered₁⟩ := grow _ _ _ _ _ _ first registered
      have adds' := (grow.mapM rest registered₁).1
      -- the first key reveals its phrase, and registers nothing of the later trees
      have revealed := reveals q List.mem_cons_self _ _ _ _ _ _ z kb registered
        (fun r member => unloaded r (List.mem_append_left _ member)) first
        ((adds'.mono (Nat.zero_le _)).trans after) here
      have only := revealed.registers
      rw [List.flatMap_singleton] at only
      refine revealed.cons (ih (fun q member => reveals q (List.mem_cons_of_mem _ member))
        (List.nodup_append.mp distinct).2.1
        (fun r member => inside r (List.mem_append_right _ member)) (adds.kb.trans kb) registered₁
        (unloaded.after only (List.disjoint_of_nodup_append distinct) fun r member =>
          inside r (List.mem_append_right _ member)) rest (after.mono adds.size) later)

/-- A phrase is in its tree. -/
theorem Heap.mem_phrasesBelow {heap : Heap} {q : PhraseRef} (bounded : heap.HasHeight height q) :
    q ∈ heap.phrasesBelow height q := by
  cases height with
  | zero => exact bounded.elim
  | succ height => exact List.mem_cons_self

theorem KB.node_of_mem_loadChildrenList {kb : KB} {parent : Option ℕ} {linkType : String} {map : Node}
    (listed : map ∈ kb.loadChildrenList platform parent linkType) : kb.node map.id = map := by
  obtain ⟨key, value⟩ := KB.mem_loadChildrenList.mp listed
  obtain ⟨rel, -, -, -, rfl⟩ :=
    KB.linked_of_mem_loadChildrenMap (InsertionMap.get?_eq_some_iff.mp value)
  rw [kb.id_node]

/-- A number tells the nodes of a plan apart, and the knowledge base holds what was written. -/
theorem SavePlan.Stored.eq_node {startNode : ℕ} {root : Child} {kb : KB}
    (stored : plan.Stored startNode root kb) {r : ResourceRef} (member : r ∈ plan.resources)
    {map : Node} (read : kb.node map.id = map) (same : toString map.id = toString (plan.nodeOf r)) :
    map = ⟨plan.nodeOf r, plan.heap.exported r⟩ := by
  rw [← read, toString_nat_injective same, stored.node member]

/-- A child that is found by its key is found under its text. -/
theorem SavePlan.Stored.key_eq {startNode : ℕ} {root : Child} {kb : KB}
    (stored : plan.Stored startNode root kb) {q q' : PhraseRef} (member : .phrase q ∈ plan.resources)
    (member' : .phrase q' ∈ plan.resources) (other : q' ≠ q) {key : String}
    (found : kb.loadChild platform (some (plan.nodeOf (.phrase q))) key phrasesLinkName =
      some ⟨plan.nodeOf (.phrase q'), plan.heap.exported (.phrase q')⟩) :
    key = plan.textOf (.phrase q') := by
  obtain ⟨rel, first, ends⟩ := Option.map_eq_some_iff.mp found
  have same : rel.endNode = plan.nodeOf (.phrase q') := by
    rw [← kb.id_node rel.endNode, ends]
  have key_ : rel.key = key := by simpa using List.find?_some first
  have listed := (platform.order_perm _).mem_iff.mp (List.mem_of_find?_eq_some first)
  rw [stored.getNodeById member] at listed
  obtain ⟨planned, touches, -⟩ := (stored.mem_relationshipsOf (.phrase q)).mp listed
  have outgoing : rel.startNode = plan.nodeOf (.phrase q) := touches.resolve_right fun ended =>
    other (ResourceRef.phrase.inj (SavePlan.nodeOf_injOn member' (same.symm.trans ended)))
  obtain ⟨child, edge, rfl⟩ := stored.child_of_planned member planned outgoing
  have resource : child.resource = .phrase q' := (SavePlan.nodeOf_injOn member' same.symm).symm
  have keyed : child.key = .resourceURI := Heap.key_of_mem_phraseChildren edge
  rw [← key_, SavePlan.relationship, keyed, resource]

/-- When the keys are determined by what is found, they are those of the phrases. -/
theorem keys_eq_map {found : String → PhraseRef → Prop} {text : PhraseRef → String}
    {keys : List String} {qs : List PhraseRef} (all : List.Forall₂ found keys qs)
    (determined : ∀ q ∈ qs, ∀ key, found key q → key = text q) :
    keys = qs.map text ∧ ∀ q ∈ qs, found (text q) q := by
  induction all with
  | nil => exact ⟨rfl, fun _ none => nomatch none⟩
  | @cons key q keys qs here _ ih =>
    obtain ⟨same, each⟩ := ih fun q member => determined q (List.mem_cons_of_mem _ member)
    have first := determined q List.mem_cons_self key here
    refine ⟨by rw [List.map_cons, ← first, same], fun q' member => ?_⟩
    rcases List.mem_cons.mp member with rfl | later
    · exact first ▸ here
    · exact each q' later

/-- The concepts that are copied are those of the phrase. -/
theorem readable_concepts (followed : plan.Followed platform plan.arrivals t) {startNode : ℕ}
    {root : Child} (stored : plan.Stored startNode root t.kb) {maps : List Node} {w z : World} {b : ℕ}
    {cs cs' : List ConceptRef} (read : ∀ map ∈ maps, t.kb.node map.id = map)
    (inside : ∀ c ∈ cs, .concept c ∈ plan.resources)
    (copies : List.Forall₂ (Concept.MadeOf platform w) maps cs') (after : w.Adds b z)
    (copied : List.Forall₂ (ConceptCopied t z) cs cs') :
    maps = cs.map (fun c => ⟨plan.nodeOf (.concept c), plan.heap.exported (.concept c)⟩) ∧
      ∀ c ∈ cs, (plan.heap.concept c).content.value = (plan.heap.concept c).content.name := by
  induction copies generalizing cs with
  | nil =>
    cases copied
    exact ⟨rfl, fun _ none => nomatch none⟩
  | @cons map c' maps cs' made _ ih =>
    cases copied with
    | @cons c _ cs _ here later =>
      obtain ⟨rest, contents⟩ := ih (fun map member => read map (List.mem_cons_of_mem _ member))
        (fun c member => inside c (List.mem_cons_of_mem _ member)) later
      have made' := made.adds after
      have member := inside c List.mem_cons_self
      -- the copy has the number of its concept, and a number belongs to one node
      have same : map = ⟨plan.nodeOf (.concept c), plan.heap.exported (.concept c)⟩ := by
        refine stored.eq_node member (read map List.mem_cons_self) ?_
        have identity := here.identity
        rw [followed.numbered _ member] at identity
        rw [← identity]
        exact (congrArg KnowledgeURI.uid made'.uri).symm
      refine ⟨by rw [same, rest]; rfl, fun d inside => ?_⟩
      rcases List.mem_cons.mp inside with rfl | deeper
      · have content := here.content
        rw [made'.content, followed.concept_eq, same] at content
        rw [← content]
      · exact contents d deeper

theorem Reveals.succ (followed : plan.Followed platform plan.arrivals t)
    (closed : DepthFirst.Closed plan.heap.children Child.resource plan.resources) {startNode : ℕ}
    {root : Child} (stored : plan.Stored startNode root t.kb)
    (grow : LoadsGrow load) {q : PhraseRef} (member : .phrase q ∈ plan.resources)
    (bounded : plan.heap.HasHeight (height + 1) q)
    (distinct : (plan.heap.phrasesBelow (height + 1) q).Nodup)
    (reveals : ∀ q' ∈ (plan.heap.phrase q).phrases, Reveals platform plan t height load q') :
    Reveals platform plan t (height + 1) (AnnotatedPhrase.loadWith platform load) q := by
  intro parent key linkType w q' w' z kb registered unloaded run after restored
  obtain ⟨copied, children⟩ := restored
  have identity := copied.identity
  rw [followed.numbered _ member] at identity
  obtain ⟨map, found, ⟨cached, rfl⟩ | ⟨cs, w₁, ps, w₂, made, rfl, rfl⟩⟩ := phraseMade_of_run run
  · -- the phrase would have been registered under the number of its node
    obtain ⟨inside, uri, uid⟩ := registered map.id q' cached
    rw [after.uid_phrase inside uri, uid] at identity
    have new := unloaded q List.mem_cons_self
    rw [← toString_nat_injective identity, cached] at new
    cases new
  · obtain rfl := stored.eq_node member (kb ▸ KB.node_of_loadChild found) (by
      rw [after.uid_phrase (made.inside_finish grow registered) (made.uri_finish grow registered),
        made.uid_finish grow registered] at identity
      exact identity)
    have same : z.heap.phrase w.heap.phrases.size = _ :=
      (after.phrase _ le_rfl (made.inside_finish grow registered)).trans
        (made.phrase_finish grow registered)
    obtain ⟨single, rest⟩ := List.nodup_cons.mp distinct
    have inside : ∀ r ∈ plan.heap.phrasesBelow (height + 1) q, .phrase r ∈ plan.resources :=
      fun r below => SavePlan.mem_resources_of_mem_phrasesBelow closed member below
    rw [followed.phrase_eq, same] at children
    have revealed := Reveals.mapM grow reveals rest
      (fun r below => inside r (List.mem_cons_of_mem q below)) (made.adds_copied.kb.trans kb)
      (made.registered_copied registered)
      (SavePlan.Unloaded.begin made.objects unloaded member single) made.children
      ((World.adds_after after).mono made.inside_copied) children
    have below : ∀ q' ∈ (plan.heap.phrase q).phrases, .phrase q' ∈ plan.resources ∧ q' ≠ q := by
      intro q' child
      refine ⟨closed _ member _ (plan.heap.mem_children_phrase child), fun same => ?_⟩
      subst same
      exact single (List.mem_flatMap.mpr ⟨q', child, Heap.mem_phrasesBelow (bounded q' child)⟩)
    obtain ⟨keys, each⟩ := keys_eq_map revealed.found fun q' child key here =>
      stored.key_eq member (below q' child).1 (below q' child).2 here
    obtain ⟨cs', perm, copies⟩ := copied.concepts
    rw [followed.phrase_eq] at perm
    rw [same] at copies
    obtain ⟨maps, contents⟩ := readable_concepts followed stored
      (fun map listed => kb ▸ KB.node_of_mem_loadChildrenList listed)
      (fun c among => closed _ member _ (plan.heap.mem_children_concept (perm.mem_iff.mp among)))
      made.copies (made.adds_copies grow registered after) copies
    have readable : PhraseReadable platform plan t.kb q :=
      { accepted := made.accepted
        sentenceIndex := by
          have index := copied.sentenceIndex
          rw [same, followed.phrase_eq] at index
          exact index.symm
        contents := fun c among => contents c (perm.mem_iff.mpr among)
        concepts := ⟨cs', perm, kb ▸ maps⟩
        keys := kb ▸ keys
        found := each }
    refine ⟨.cons (kb ▸ found) .nil, ?_, ?_⟩
    · intro r listed
      rw [List.flatMap_singleton] at listed
      rcases List.mem_cons.mp listed with rfl | deeper
      · exact readable
      · exact revealed.readable r deeper
    · rw [List.flatMap_singleton]
      exact SavePlan.RegistersOnly.begin made.objects revealed.registers

theorem reveals_of_load (followed : plan.Followed platform plan.arrivals t)
    (closed : DepthFirst.Closed plan.heap.children Child.resource plan.resources) {startNode : ℕ}
    {root : Child} (stored : plan.Stored startNode root t.kb) {q : PhraseRef}
    (member : .phrase q ∈ plan.resources) (bounded : plan.heap.HasHeight height q)
    (distinct : (plan.heap.phrasesBelow height q).Nodup) :
    Reveals platform plan t height (AnnotatedPhrase.load platform height) q := by
  induction height generalizing q with
  | zero => exact bounded.elim
  | succ height ih =>
    refine Reveals.succ followed closed stored (loadsGrow platform height) member bounded distinct
      fun q' child => ?_
    exact ih (closed _ member _ (plan.heap.mem_children_phrase child)) (bounded q' child)
      ((List.nodup_flatMap.mp (List.nodup_cons.mp distinct).2).1 q' child)

end Reveal

end ThinkingUnderstanding
