import ThinkingUnderstanding.Persistence.Children
import ThinkingUnderstanding.Persistence.SavePlan

/-!
# Annotated narratives

A narrative is stored below its parent, its sentences below the narrative and their phrases
below them, and the list that is passed along notes the texts of URIs here. A text that was
noted before is taken for a resource that was stored before: it is linked to by the uid of its
own URI, which it does not have when it was not. The sentences that the factories make have one
URI name, and so one text, unless they are given a URI.

The three levels are not read as they are written. A narrative is stored without its text, and
a sentence is made of its node alone, without phrases.

A narrative and a sentence refer to a URI object; what `KBMap` registers under their nodes is
left out, since no load of a narrative reads it.

## Main definitions

* `AnnotatedNarrative`, `AnnotatedSentence` — the objects
* `AnnotatedNarrative.save`, `AnnotatedSentence.save`, `AnnotatedNarrative.load`

## Main results

* `run_saveNarrated_of_unsaved`, `run_saveNarrated_of_saved` — a text that is noted, or not
-/

namespace ThinkingUnderstanding

open Math Semantics

/-- `AnnotatedSentence`. -/
structure AnnotatedSentence where
  phrases : List PhraseRef := []
  uri : UriRef
  probability : Probability := {}
  text : String := ""
  deriving DecidableEq, Repr

/-- `AnnotatedNarrative`. -/
structure AnnotatedNarrative where
  sentences : List AnnotatedSentence
  uri : UriRef
  probability : Probability := {}
  text : String := ""
  deriving DecidableEq, Repr

/-- `AnnotatedSentence.export`. -/
def Heap.exportedSentence (heap : Heap) (x : AnnotatedSentence) : Properties :=
  { exportedResource (heap.uri x.uri) x.probability with text := some x.text }

/-- `Resource.export`, which `AnnotatedNarrative` inherits. -/
def Heap.exportedNarrative (heap : Heap) (n : AnnotatedNarrative) : Properties :=
  exportedResource (heap.uri n.uri) n.probability

/-- `KBMap.get`, for a resource that has the URI. -/
def KBMap.getURI (u : UriRef) : KBProgram (Option ℕ) := do
  let uid := ((← MonadState.get).heap.uri u).uid
  if uid = "" then return none
  match parseLong uid with
  | some id => return some id
  | none => throw (.numberFormatException uid)

/-- `N4JKB.saveResource`, for a resource that has the URI. -/
def N4JKB.saveExported (u : UriRef) (exported : Heap → Properties) (parent : Option ℕ)
    (key linkType : String) : KBProgram Unit :=
  modify fun s => { s with
    heap := s.heap.modifyURI u fun uri => { uri with uid := toString (s.kb.upcoming 0) }
    kb := s.kb.addChild (exported s.heap) parent linkType key }

variable (platform : Platform) (stack : ℕ)

/-- What the two `save` methods have in common; `rest` saves what the resource consists of. -/
def saveNarrated (u : UriRef) (exported : Heap → Properties) (rest : KBProgram Unit)
    (parent : Option ℕ) (key linkType : String) : KBProgram Unit := do
  let uri ← uriText platform u
  if uri ∈ (← get).saved then
    N4JKB.createLink parent (← KBMap.getURI u) linkType key
  else
    modify fun s => { s with saved := s.saved ++ [uri] }
    N4JKB.saveExported u exported parent key linkType
    rest

/-- The loop of `AnnotatedSentence.save`. -/
def AnnotatedSentence.savePhrases (x : AnnotatedSentence) : KBProgram Unit :=
  forM x.phrases fun p => do
    let this ← KBMap.getURI x.uri
    saveBelow platform (ThinkingUnderstanding.save platform stack) this
      (Heap.child phrasesLinkName (.phrase p))

/-- `AnnotatedSentence.save`. -/
def AnnotatedSentence.save (x : AnnotatedSentence) : Option ℕ → String → String → KBProgram Unit :=
  saveNarrated platform x.uri (fun heap => heap.exportedSentence x)
    (x.savePhrases platform stack)

/-- The call of `save` for a sentence of a narrative with the URI `u`. -/
def AnnotatedNarrative.saveSentence (u : UriRef) (x : AnnotatedSentence) : KBProgram Unit := do
  let this ← KBMap.getURI u
  let key ← uriText platform x.uri
  x.save platform stack this key phrasesLinkName

/-- `AnnotatedNarrative.save`. -/
def AnnotatedNarrative.save (n : AnnotatedNarrative) :
    Option ℕ → String → String → KBProgram Unit :=
  saveNarrated platform n.uri (fun heap => heap.exportedNarrative n)
    (forM n.sentences (AnnotatedNarrative.saveSentence platform stack n.uri))

/-- `AnnotatedNarrative.save` with the default value of its last parameter. -/
def AnnotatedNarrative.saveAnew (n : AnnotatedNarrative) (parent : Option ℕ)
    (key linkType : String) : KBProgram Unit := do
  modify fun s => { s with saved := [] }
  n.save platform stack parent key linkType

/-- `new AnnotatedSentence(map)`. -/
def AnnotatedSentence.ofMap (map : Node) : KBProgram AnnotatedSentence := do
  let uri ← createURI (KnowledgeURI.ofMap platform map)
  return { uri, probability := .ofMap map, text := map.properties.text.getD "" }

/-- `AnnotatedNarrative.load`. -/
def AnnotatedNarrative.load : Loader AnnotatedNarrative := fun parent key linkType => do
  match (← get).kb.loadChild platform parent key linkType with
  | none => throw (.unexpectedException (notLoaded key linkType "tu.model.knowledge.KBNodeId"))
  | some selfMap =>
      let children := (← get).kb.loadChildrenList platform (some selfMap.id) phrasesLinkName
      let sentences ← children.mapM (AnnotatedSentence.ofMap platform)
      let uri ← createURI (KnowledgeURI.ofMap platform selfMap)
      return { sentences, uri, probability := .ofMap selfMap
               text := selfMap.properties.text.getD "" }

/-! ### What the steps of a save do -/

/-- The text of a URI object. -/
def World.textOf (s : World) (u : UriRef) : String := (s.heap.uri u).text

/-- The uid of a URI object. -/
def World.uidOf (s : World) (u : UriRef) : String := (s.heap.uri u).uid

/-- The state after a resource that has the URI is stored, its text being noted. -/
def World.storeURI (s : World) (u : UriRef) (exported : Heap → Properties) (parent : Option ℕ)
    (key linkType : String) : World :=
  { s with
    heap := s.heap.modifyURI u fun uri => { uri with uid := toString (s.kb.upcoming 0) }
    kb := s.kb.addChild (exported s.heap) parent linkType key
    saved := s.saved ++ [s.textOf u] }

variable {platform} {stack : ℕ} {u : UriRef} {exported : Heap → Properties} {rest : KBProgram Unit}
  {parent : Option ℕ} {key linkType : String} {s : World}

theorem KBMap.run_getURI {id : ℕ} (registered : s.uidOf u = toString id) :
    (KBMap.getURI u).run s = .ok (some id) s := by
  have uid : (s.heap.uri u).uid = toString id := registered
  simp only [getURI, EStateM.run_bind, EStateM.run_get, uid, if_neg (toString_nat_ne_empty id),
    parseLong_repr]
  rfl

theorem KBMap.run_getURI_of_empty (empty : s.uidOf u = "") :
    (KBMap.getURI u).run s = .ok none s := by
  have uid : (s.heap.uri u).uid = "" := empty
  simp only [getURI, EStateM.run_bind, EStateM.run_get, uid, if_pos]
  rfl

/-- The state in which a text that is asked for has been kept. -/
theorem World.Asked.textOf {s' : World} (asked : World.Asked u s s') (v : UriRef) :
    s'.textOf v = s.textOf v := by
  unfold World.textOf
  by_cases same : v = u
  · rw [same, asked.kept, KnowledgeURI.text, Option.getD_some]
  · rw [asked.others v same]

theorem World.Asked.uidOf {s' : World} (asked : World.Asked u s s') (v : UriRef) :
    s'.uidOf v = s.uidOf v := by
  unfold World.uidOf
  by_cases same : v = u
  · rw [same, asked.kept]
  · rw [asked.others v same]

theorem World.Asked.accepted {s' : World} (asked : World.Asked u s s') {v : UriRef}
    (accepted : (s.heap.uri v).Accepted platform) : (s'.heap.uri v).Accepted platform := by
  by_cases same : v = u
  · rw [same, asked.kept]
    exact fun none => nomatch none
  · rw [asked.others v same]
    exact accepted

/-- Asking again, once a text is kept, changes nothing. -/
theorem World.Asked.cached {s' : World} (asked : World.Asked u s s') :
    (s'.heap.uri u).cached = some (s.textOf u) := by
  rw [asked.kept]
  rfl

section Cases

variable (exported rest parent key linkType)

theorem run_saveNarrated_of_refused (refused : ¬ (s.heap.uri u).Accepted platform) :
    ∃ e, (saveNarrated platform u exported rest parent key linkType).run s = .error e s := by
  obtain ⟨e, run⟩ := run_uriText_of_not_accepted refused
  refine ⟨e, ?_⟩
  rw [saveNarrated, EStateM.run_bind, run]

/-- A text that was noted before is linked to. -/
theorem run_saveNarrated_of_saved (accepted : (s.heap.uri u).Accepted platform)
    (noted : s.textOf u ∈ s.saved) :
    ∃ s', World.Asked u s s' ∧
      (saveNarrated platform u exported rest parent key linkType).run s =
        (KBMap.getURI u >>= fun id => N4JKB.createLink parent id linkType key).run s' := by
  obtain ⟨s', run, asked⟩ := run_uriText_of_accepted accepted
  have known : (s.heap.uri u).text ∈ s'.saved := asked.saved ▸ noted
  refine ⟨s', asked, ?_⟩
  simp only [saveNarrated, EStateM.run_bind, run, EStateM.run_get, if_pos known]

/-- Any other text is noted, and the resource is stored. -/
theorem run_saveNarrated_of_unsaved (accepted : (s.heap.uri u).Accepted platform)
    (unknown : s.textOf u ∉ s.saved) :
    ∃ s', World.Asked u s s' ∧
      (saveNarrated platform u exported rest parent key linkType).run s =
        rest.run (s'.storeURI u exported parent key linkType) := by
  obtain ⟨s', run, asked⟩ := run_uriText_of_accepted accepted
  have absent : (s.heap.uri u).text ∉ s'.saved := asked.saved ▸ unknown
  refine ⟨s', asked, ?_⟩
  have text : s'.textOf u = (s.heap.uri u).text := asked.textOf u
  simp only [saveNarrated, EStateM.run_bind, run, EStateM.run_get, if_neg absent,
    N4JKB.saveExported, EStateM.run_modify, World.storeURI, text]

end Cases

end ThinkingUnderstanding
