import ThinkingUnderstanding.Persistence.FreshProcess

/-!
# Does identity survive persistence?

Three comparisons say what a concept is: `hasGeneralisation` and `hasSameGeneralisation` look
for URI objects among the keys of a line of knowledge, and `hasGeneralisationRec` compares the
contents of URIs. That comparison, `KnowledgeURI.equals`, compares namespaces by identity.

The namespace of a URI that is rebuilt of a node is a text read from the database, which is
a new object. No URI that is loaded is therefore equal to the one that was saved.

## Main definitions

* `Heap.hasGeneralisation`, `Heap.hasSameGeneralisation`
* `Reloaded` — a concept, and the one that is loaded from its node
* `IdentitySurvives` — the comparisons agree before and after, and the URI is equal

## Main results

* `respects_save_of` — what the steps of a save respect, a save respects
* `not_identitySurvives` — identity survives for no concepts
-/

namespace ThinkingUnderstanding

open Math Semantics

namespace Heap

/-- `Concept.hasGeneralisation(parent)`: the key is looked for by identity. -/
def hasGeneralisation (heap : Heap) (c parent : ConceptRef) : Bool :=
  (heap.concept parent).uri ∈ (heap.generalisations c).keys

/-- `Concept.hasSameGeneralisation(that)`. -/
def hasSameGeneralisation (heap : Heap) (c that : ConceptRef) : Bool :=
  ((heap.generalisations that).keys.filter (· ∈ (heap.generalisations c).keys)).length > 0

end Heap

/-- The concept has been stored as a new node by a save that led from `s` to `t`, and the other
one has been loaded from that node. -/
def Reloaded (s t w : World) (c c' : ConceptRef) : Prop :=
  ∃ id, t.heap.uid (.concept c) = toString id ∧ t.kb.HasNode id ∧ ¬ s.kb.HasNode id ∧
    w.id2object id = some (.concept c')

/-- The comparisons of two concepts have the same answers as those of two other ones, and the
URI of the first is equal to that of its counterpart. -/
structure IdentitySurvives (before after : Heap) (a b a' b' : ConceptRef) : Prop where
  hasGeneralisation : after.hasGeneralisation a' b' = before.hasGeneralisation a b
  hasSameGeneralisation : after.hasSameGeneralisation a' b' = before.hasSameGeneralisation a b
  hasGeneralisationRec : ∀ stack,
    after.hasGeneralisationRec stack a' b' = before.hasGeneralisationRec stack a b
  uri : (after.uriOf a').equals (before.uriOf a)

/-! ### What every save respects -/

section Respects

variable {R : World → World → Prop} [IsPreorder World R] {platform : Platform}

/-- A relation that the steps of a save respect: a change of a URI object, a note in the list of
uids, a relationship between nodes, and a resource that is stored. -/
structure RespectedBySteps (R : World → World → Prop) : Prop where
  uris : ∀ s u f, R s { s with heap := s.heap.modifyURI u f }
  noted : ∀ s saved, R s { s with saved }
  linked : ∀ s startNode endNode linkType key,
    R s { s with kb := s.kb.createRelationshipTo startNode endNode linkType key }
  stored : ∀ r parent key linkType, Respects R (N4JKB.saveResource r parent key linkType)

variable (steps : RespectedBySteps R)

include steps

theorem respects_uriText_of (u : UriRef) : Respects R (uriText platform u) := by
  refine respects_get.bind fun s => ?_
  dsimp only
  split
  · exact respects_pure _
  · split_ifs
    · have assigned : Respects R (modify fun s => { s with
          heap := s.heap.modifyURI u fun uri => { uri with cached := some uri.format } } :
            KBProgram PUnit) := fun t => steps.uris t u _
      exact assigned.bind fun _ => respects_pure _
    · exact respects_throw _

theorem respects_keyText_of (child : Child) : Respects R (child.keyText platform) := by
  unfold Child.keyText
  cases child.key with
  | resourceURI => exact respects_get.bind fun _ => respects_uriText_of steps _
  | linkName text => exact respects_pure text

omit steps in
theorem respects_get_of (r : ResourceRef) : Respects R (KBMap.get r) := by
  refine respects_get.bind fun s => ?_
  dsimp only
  split_ifs
  · exact respects_pure _
  · split
    · exact respects_pure _
    · exact respects_throw _

theorem respects_createLink_of (parent child : Option ℕ) (linkType key : String) :
    Respects R (N4JKB.createLink parent child linkType key) := by
  intro s
  simp only [N4JKB.createLink, EStateM.run_bind, EStateM.run_get]
  cases s.kb.findNode parent with
  | none => exact refl s
  | some parentNode =>
    cases s.kb.findNode child with
    | none => exact refl s
    | some childNode => exact steps.linked s parentNode childNode linkType key

theorem respects_checkIfSaved_of (parent refObject : Option ℕ) (key linkType uid : String) :
    Respects R (checkIfSaved parent key linkType refObject uid) := by
  unfold checkIfSaved
  split_ifs
  · exact respects_pure false
  · refine respects_get.bind fun s => ?_
    split_ifs
    · exact (respects_createLink_of steps _ _ _ _).bind fun _ => respects_pure true
    · have noted : Respects R (modify fun s => { s with saved := s.saved ++ [uid] } :
          KBProgram PUnit) := fun t => steps.noted t _
      exact noted.bind fun _ => respects_pure false

theorem respects_appendToSave_of (r : ResourceRef) : Respects R (appendToSave r) := by
  refine respects_get.bind fun s => ?_
  have noted : Respects R (modify fun t => { t with saved := t.saved ++ [s.heap.uid r] } :
      KBProgram PUnit) := fun t => steps.noted t _
  dsimp only
  split_ifs
  · exact (respects_throw _).bind fun _ => noted
  · exact noted

/-- A save respects what its steps respect. -/
theorem respects_save_of (stack : ℕ) (r : ResourceRef) (parent : Option ℕ) (key linkType : String) :
    Respects R (save platform stack r parent key linkType) := by
  induction stack generalizing r parent key linkType with
  | zero => exact respects_throw _
  | succ stack ih =>
    by_cases recursive : r.Recursive
    · rw [save_succ_of_recursive stack recursive]
      refine (respects_get_of r).bind fun refObject => ?_
      refine respects_get.bind fun s => ?_
      refine (respects_checkIfSaved_of steps parent refObject _ _ _).bind fun known => ?_
      cases known with
      | true => exact respects_pure _
      | false =>
        refine (steps.stored r parent key linkType).bind fun _ => ?_
        refine (respects_appendToSave_of steps r).bind fun _ => ?_
        refine respects_get.bind fun t => respects_forM _ fun child _ => ?_
        refine (respects_get_of r).bind fun this => ?_
        exact (respects_keyText_of steps child).bind fun text => ih _ this text _
    · cases r with
      | link l => exact steps.stored (.link l) parent key linkType
      | concept c => exact absurd trivial recursive
      | phrase p => exact absurd trivial recursive
      | network n => exact absurd trivial recursive

theorem respects_saveAnew_of (platform : Platform) (stack : ℕ) (r : ResourceRef)
    (parent : Option ℕ) (key linkType : String) :
    Respects R (saveAnew platform stack r parent key linkType) := by
  have emptied : Respects R (modify fun s => { s with saved := [] } : KBProgram PUnit) :=
    fun t => steps.noted t _
  exact emptied.bind fun _ => respects_save_of steps stack r parent key linkType

end Respects

/-! ### The namespaces of nodes -/

/-- Every node that the second state has and the first has not is stored with a namespace. -/
def NamesNodes (s t : World) : Prop :=
  ∀ node ∈ t.kb.nodes, node ∈ s.kb.nodes ∨ node.properties.namespace_.isSome

instance : IsPreorder World NamesNodes where
  refl _ _ member := Or.inl member
  trans _ _ _ first second node member := by
    rcases second node member with old | named
    · exact first node old
    · exact Or.inr named

/-- Whatever is saved, its namespace is among the properties. -/
theorem respectedBySteps_namesNodes : RespectedBySteps NamesNodes where
  uris _ _ _ _ member := Or.inl member
  noted _ _ _ member := Or.inl member
  linked _ _ _ _ _ _ member := Or.inl member
  stored r parent key linkType s node member := by
    have nodes : node ∈ s.kb.nodes ++ [⟨s.kb.upcoming 0, s.heap.exported r⟩] := member
    rw [List.mem_append, List.mem_singleton] at nodes
    rcases nodes with old | rfl
    · exact Or.inl old
    · right
      cases r <;> rfl

theorem KB.node_mem {kb : KB} {id : ℕ} (present : kb.HasNode id) : kb.node id ∈ kb.nodes := by
  obtain ⟨node, member, same⟩ := List.mem_map.mp present
  have found : (kb.nodes.find? fun node => node.id = id).isSome :=
    List.find?_isSome.mpr ⟨node, member, decide_eq_true same⟩
  obtain ⟨node', has⟩ := Option.isSome_iff_exists.mp found
  rw [KB.node, has]
  exact List.mem_of_find?_eq_some has

/-- A node that a save has made has a namespace. -/
theorem exists_namespace_of_saved {platform : Platform} {stack : ℕ} {root : ResourceRef}
    {parent : Option ℕ} {key linkType : String} {s t : World}
    (saved : (saveAnew platform stack root parent key linkType).run s = .ok () t) {id : ℕ}
    (present : t.kb.HasNode id) (new : ¬ s.kb.HasNode id) :
    ∃ text, (t.kb.node id).properties.namespace_ = some text := by
  have named := respects_saveAnew_of respectedBySteps_namesNodes platform stack root parent key
    linkType s
  rw [saved] at named
  apply Option.isSome_iff_exists.mp
  refine (named _ (KB.node_mem present)).resolve_left fun old => new ?_
  exact t.kb.id_node id ▸ List.mem_map_of_mem old

/-- Identity survives for no concepts: where the texts that are read from the database are new
objects, the URI that is loaded is not equal to the one that was saved, whatever else is
loaded in the new process. -/
theorem not_identitySurvives (platform : Platform) (stack : ℕ) (root : ResourceRef)
    (parent : Option ℕ) (key linkType : String) (s t w₀ w : World)
    (saved : (saveAnew platform stack root parent key linkType).run s = .ok () t)
    (fresh : FreshProcess t w₀)
    (texts : ∀ id u, platform.namespaceObject id ≠ (s.heap.uri u).namespace_.object)
    (reached : Reachable (LoadCall.perform platform) (fun _ _ => True) w₀ w)
    (a b a' b' : ConceptRef) (reloaded : Reloaded s t w a a') :
    ¬ IdentitySurvives s.heap w.heap a b a' b' := by
  obtain ⟨id, -, present, new, found⟩ := reloaded
  have loaded : LoadedFrom platform w₀ w :=
    reached.invariant (LoadedFrom.of_freshProcess fresh) fun _ call loaded _ => loaded.perform call
  obtain ⟨text, named⟩ := exists_namespace_of_saved saved present new
  intro survives
  have rebuilt := KnowledgeURI.equals_iff.mp (loaded.rebuilt id a' found)
  have same := KnowledgeURI.equals_iff.mp survives.uri
  have namespaces := rebuilt.2.1.symm.trans same.2.1
  rw [KnowledgeURI.ofMap, fresh.kb, named, t.kb.id_node] at namespaces
  exact texts id (s.heap.concept a).uri (congrArg StringObject.object namespaces)

/-! ### A user who is a person -/

/-- A person and a user who is one, before anything is saved. -/
def userBeforeSaving : World where
  heap :=
    { uris := .ofList [{ name := "person" }, { name := "user" }]
      conceptLines := .ofList [{}, { frames := .ofList [(1, 1)] }, { frames := .ofList [(0, 0)] }]
      phraseLines := .ofList [{}]
      concepts := .ofList
        [{ generalisations := some 0, specialisations := some 1, phrases := some 0, uri := 0 },
          { generalisations := some 2, specialisations := some 0, phrases := some 0, uri := 1 }] }
  kb := .onlyRoot
  id2object _ := none

/-- The user has been saved, and the person with it. -/
def userAfterSaving : World :=
  finalState ((saveAnew .plain 3 (.concept 1) (some KB.rootId) "user" defaultLinkName).run
    userBeforeSaving)

theorem run_userAfterSaving :
    (saveAnew .plain 3 (.concept 1) (some KB.rootId) "user" defaultLinkName).run
      userBeforeSaving = .ok () userAfterSaving :=
  eq_ok_of_returned (by decide +kernel)

/-- A new process. -/
def userRestarted : World where
  heap := {}
  kb := userAfterSaving.kb
  id2object _ := none

/-- The user has been loaded, and the person with it. -/
def userAfterLoading : World :=
  finalState (((LoadCall.concept 3 (some KB.rootId) "user" defaultLinkName).perform .plain).run
    userRestarted)

theorem user_not_identitySurvives :
    ¬ IdentitySurvives userBeforeSaving.heap userAfterLoading.heap 1 0 0 1 := by
  have first : ∀ u < 2, (userBeforeSaving.heap.uri u).namespace_.object = 0 := by decide +kernel
  have texts : ∀ id u, Platform.plain.namespaceObject id ≠
      (userBeforeSaving.heap.uri u).namespace_.object := by
    intro id u
    have same : (userBeforeSaving.heap.uri u).namespace_.object = 0 := by
      rcases lt_or_ge u 2 with inside | beyond
      · exact first u inside
      · have none : userBeforeSaving.heap.uri u = default :=
          userBeforeSaving.heap.uris.get_of_size_le u beyond
        rw [none]
        rfl
    rw [same]
    exact Nat.succ_ne_zero id
  apply not_identitySurvives .plain 3 (.concept 1) (some KB.rootId) "user" defaultLinkName
    userBeforeSaving userAfterSaving userRestarted userAfterLoading run_userAfterSaving
    ⟨rfl, fun _ => rfl⟩ texts (Reachable.start.step _ trivial)
  exact ⟨1, by decide +kernel, by decide +kernel, by decide +kernel, by decide +kernel⟩

/-- The person is a generalisation of the user before, and is none of the user who is loaded. -/
theorem user_forgets_person :
    Reloaded userBeforeSaving userAfterSaving userAfterLoading 1 0 ∧
    Reloaded userBeforeSaving userAfterSaving userAfterLoading 0 1 ∧
    userBeforeSaving.heap.hasGeneralisation 1 0 = true ∧
    userAfterLoading.heap.generalisationsList 0 = [1] ∧
    userAfterLoading.heap.hasGeneralisation 0 1 = false ∧
    ¬ IdentitySurvives userBeforeSaving.heap userAfterLoading.heap 1 0 0 1 := by
  have before : userBeforeSaving.heap.hasGeneralisation 1 0 = true := by decide +kernel
  have after : userAfterLoading.heap.hasGeneralisation 0 1 = false := by decide +kernel
  refine ⟨?_, ?_, before, by decide +kernel, after, fun survives => ?_⟩
  · exact ⟨1, by decide +kernel, by decide +kernel, by decide +kernel, by decide +kernel⟩
  · exact ⟨2, by decide +kernel, by decide +kernel, by decide +kernel, by decide +kernel⟩
  · have same := survives.hasGeneralisation
    rw [before, after] at same
    cases same

end ThinkingUnderstanding
