import ThinkingUnderstanding.Persistence.SavesAlike

/-!
# The types of the relationships that a save makes

Every `save` links what it stores by types that are constants of the program. A property of the
knowledge base that is kept by new nodes and new relationships of these types is therefore
kept by every save, whether it returns or raises an exception.

## Main definitions

* `graphTypes`, `networkTypes`, `issueTypes` — the types by which the parts of a resource are linked
* `KB.Kept` — the property is kept by what is stored with the types

## Main results

* `Reporting.maintains_save` — it is kept by a save
-/

namespace ThinkingUnderstanding

open Math Semantics

/-- The types by which the parts of concepts, phrases and networks are linked. -/
def graphTypes : List String :=
  [generalisationLinkName, specialisationLinkName, phrasesLinkName, conceptLinkName,
    conceptLinkSourceName, conceptLinkDestinationName, nodesLinkName, rootNodesLinkName,
    linksLinkName]

/-- The types by which the network of a solved issue and its parts are linked. -/
def networkTypes : List String := conceptsNetworkName :: graphTypes

/-- The types by which the parts of a solved issue are linked. -/
def issueTypes : List String :=
  graphTypes ++ [defaultLinkName, conceptsNetworkName, solutionName]

/-- The types by which the parts of a resource are linked. -/
def SavedResource.typesBelow : SavedResource → List String
  | graph _ => graphTypes
  | _ => issueTypes

/-- The property is kept when a node or a relationship is made, linked by one of the types. -/
structure KB.Kept (types : List String) (P : KB → Prop) : Prop where
  addChild : ∀ kb properties parent linkType key, linkType ∈ types → P kb →
    P (kb.addChild properties parent linkType key)
  createRelationshipTo : ∀ (kb : KB) (startNode endNode : {id // kb.HasNode id}) linkType key,
    linkType ∈ types → P kb → P (kb.createRelationshipTo startNode endNode linkType key)

theorem graphTypes_subset_issueTypes : graphTypes ⊆ issueTypes :=
  fun _ => List.mem_append_left _

theorem SavedResource.typesBelow_subset (r : SavedResource) : r.typesBelow ⊆ issueTypes := by
  cases r with
  | graph r => exact graphTypes_subset_issueTypes
  | _ => exact fun _ => id

theorem Heap.linkType_mem_graphTypes {heap : Heap} {r : ResourceRef} {child : Child}
    (edge : child ∈ heap.children r) : child.linkType ∈ graphTypes := by
  cases r with
  | concept c =>
    simp only [Heap.children, Heap.conceptChildren, List.mem_append, List.mem_map,
      List.mem_flatMap, List.mem_cons, List.not_mem_nil, or_false] at edge
    rcases edge with ((⟨x, -, rfl⟩ | ⟨x, -, rfl⟩) | ⟨x, -, rfl⟩) | ⟨t, -, rfl | rfl⟩
    all_goals
      dsimp only [Function.comp_apply, child]
      decide
  | phrase p =>
    simp only [Heap.children, Heap.phraseChildren, List.mem_append, List.mem_map] at edge
    rcases edge with ⟨x, -, rfl⟩ | ⟨x, -, rfl⟩
    all_goals
      dsimp only [Function.comp_apply, child]
      decide
  | network n =>
    simp only [Heap.children, Heap.networkChildren, List.mem_append, List.mem_map] at edge
    rcases edge with (⟨x, -, rfl⟩ | ⟨x, -, rfl⟩) | ⟨x, -, rfl⟩
    all_goals
      dsimp only [Function.comp_apply, child]
      decide
  | link l => cases edge

namespace Reporting

variable {types : List String} {P : KB → Prop} {platform : Platform} {store : IssueStore}
  {callers : List CallSite} {parent : Option ℕ} {key linkType : String}

/-! ### Steps that store nothing -/

theorem maintains_uriText (u : UriRef) :
    Maintains (fun w => P w.kb) (uriText platform u) fun _ => True := by
  refine maintains_get_bind fun w holds => ?_
  dsimp only
  split
  · exact maintains_pure trivial
  · split_ifs
    · exact Maintains.bind (maintains_modify fun _ => id) fun _ _ => maintains_pure trivial
    · exact maintains_throw _

theorem maintains_keyText (child : Child) :
    Maintains (fun w => P w.kb) (child.keyText platform) fun _ => True := by
  unfold Child.keyText
  cases child.key with
  | resourceURI => exact maintains_get_bind fun w _ => maintains_uriText _
  | linkName text => exact maintains_pure trivial

theorem maintains_getURI (u : UriRef) :
    Maintains (fun w => P w.kb) (KBMap.getURI u) fun _ => True := by
  refine maintains_get_bind fun w holds => ?_
  dsimp only
  split_ifs
  · exact maintains_pure trivial
  · split
    · exact maintains_pure trivial
    · exact maintains_throw _

theorem maintains_get_resource (r : ResourceRef) :
    Maintains (fun w => P w.kb) (KBMap.get r) fun _ => True :=
  fun w holds => maintains_getURI (w.heap.uriRef r) w holds

theorem maintains_appendToSave (r : ResourceRef) :
    Maintains (fun w => P w.kb) (appendToSave r) fun _ => True := by
  refine maintains_get_bind fun w holds => ?_
  dsimp only
  split_ifs
  · exact (maintains_throw (Q := fun _ => True) _).bind fun _ _ => maintains_modify fun _ => id
  · exact maintains_modify fun _ => id

theorem maintains_unrecorded {α : Type} {p : KBProgram α}
    (keeps : Maintains (fun w => P w.kb) p fun _ => True) :
    Maintains (fun s => P s.kb) (unrecorded p) fun _ => True :=
  (onPart_unrecorded p).maintains (fun _ w => P w.kb) (fun _ => id) (fun _ _ _ => id)
    fun _ _ => keeps

/-- A save with a list buffer of its own. -/
theorem maintains_withEmptyList {p : SaveProgram Bool}
    (keeps : Maintains (fun s => P s.kb) p fun _ => True) :
    Maintains (fun s => P s.kb) (withEmptyList p) fun _ => True := by
  refine maintains_get_bind fun s _ => Maintains.bind (maintains_modify fun _ => id) fun _ _ => ?_
  refine keeps.bind fun ok _ => Maintains.bind (maintains_modify fun _ => id) fun _ _ => ?_
  exact maintains_pure trivial

/-! ### Steps that store something -/

section Steps

variable (kept : KB.Kept types P)

include kept

theorem maintains_saveResource (child : SavedResource) (parent : Option ℕ) (key : String)
    (member : linkType ∈ types) :
    Maintains (fun s => P s.kb)
      (saveResource (.n4jkb store) callers child parent key linkType) fun _ => True := by
  have stored : Maintains (fun w => P w.kb)
      ((KBService.n4jkb store).saveResource child parent key linkType) fun _ => True := by
    cases child with
    | graph r =>
      refine Maintains.bind (Q := fun _ => True) ?_ fun _ _ => maintains_pure trivial
      refine maintains_get_bind fun w holds => Maintains.bind (maintains_set ?_) fun _ _ => ?_
      · exact kept.addChild _ _ _ _ _ member holds
      · exact maintains_modify fun _ => id
    | _ =>
      refine maintains_get_bind fun w _ => Maintains.bind (Q := fun _ => True) ?_ fun _ _ => ?_
      · exact maintains_modify fun w' holds => kept.addChild _ _ _ _ _ member holds
      · exact maintains_pure trivial
  refine (maintains_unrecorded stored).bind fun ok _ => ?_
  exact Maintains.bind (maintains_modify fun _ => id) fun _ _ => maintains_pure trivial

theorem maintains_createLink (parent child : Option ℕ) (key : String) (member : linkType ∈ types) :
    Maintains (fun s => P s.kb)
      (createLink (.n4jkb store) callers parent child linkType key) fun _ => True := by
  have linked : Maintains (fun w => P w.kb)
      ((KBService.n4jkb store).createLink parent child linkType key) fun _ => True := by
    refine Maintains.bind (Q := fun _ => True) ?_ fun _ _ => maintains_pure trivial
    refine maintains_get_bind fun w holds => ?_
    split
    · exact maintains_set (kept.createRelationshipTo _ _ _ _ _ member holds)
    · exact maintains_throw _
    · exact maintains_throw _
  exact (maintains_unrecorded linked).bind fun _ _ => maintains_modify fun _ => id

theorem maintains_checkIfSaved (parent refObject : Option ℕ) (key uid : String)
    (member : linkType ∈ types) :
    Maintains (fun s => P s.kb)
      (checkIfSaved (.n4jkb store) callers parent key linkType refObject uid) fun _ => True := by
  unfold checkIfSaved
  split
  · exact maintains_pure trivial
  · refine maintains_get_bind fun s _ => ?_
    split
    · exact (maintains_createLink kept _ _ _ member).bind fun _ _ => maintains_pure trivial
    · exact Maintains.bind (maintains_modify fun _ => id) fun _ _ => maintains_pure trivial

end Steps

/-! ### Saves -/

section Saves

variable {save : Saver} (kept : KB.Kept types P)
  (saves : ∀ callers r parent key linkType, SavedResource.typesBelow r ⊆ types →
    linkType ∈ types →
      Maintains (fun s => P s.kb) (save callers r parent key linkType) fun _ => True)

include saves

theorem maintains_saveInto (site : CallSite) {convert : KBProgram (Option ℕ)}
    (converts : Maintains (fun w => P w.kb) convert fun _ => True) (res : Bool) {call : Call}
    (asks : Maintains (fun w => P w.kb) call.key fun _ => True)
    (below : call.resource.typesBelow ⊆ types) (member : call.linkType ∈ types) :
    Maintains (fun s => P s.kb) (saveInto save callers site convert res call) fun _ => True := by
  refine (maintains_unrecorded converts).bind fun this _ => ?_
  refine (maintains_unrecorded asks).bind fun key _ => ?_
  exact (saves _ _ _ _ _ below member).bind fun ok _ => maintains_pure trivial

include kept

theorem maintains_saveWithChildren (r : ResourceRef) (below : graphTypes ⊆ types)
    (parent : Option ℕ) (key : String) (member : linkType ∈ types) :
    Maintains (fun s => P s.kb)
      (saveWithChildren platform (.n4jkb store) save (fun heap => heap.children r) callers r parent
        key linkType) fun _ => True := by
  refine (maintains_unrecorded (maintains_get_resource r)).bind fun refObject _ => ?_
  refine maintains_get_bind fun s _ => ?_
  refine (maintains_checkIfSaved kept _ _ _ _ member).bind fun known _ => ?_
  cases known with
  | true => exact maintains_pure trivial
  | false =>
    refine (maintains_saveResource kept _ _ _ member).bind fun res _ => ?_
    refine (maintains_unrecorded (maintains_appendToSave r)).bind fun _ _ => ?_
    refine maintains_get_bind fun s _ => Maintains.foldlM _ (fun call listed res _ => ?_) trivial
    obtain ⟨child, edge, rfl⟩ := List.mem_map.mp listed
    exact maintains_saveInto saves .child (maintains_get_resource r) res (maintains_keyText child)
      below (below (Heap.linkType_mem_graphTypes edge))

variable (all : issueTypes ⊆ types)

include all

theorem maintains_saveNarrated (this : SavedResource) (u : UriRef) {calls : List Call}
    (asks : ∀ call ∈ calls, Maintains (fun w => P w.kb) call.key fun _ => True)
    (typed : ∀ call ∈ calls, call.linkType ∈ issueTypes) (parent : Option ℕ) (key : String)
    (member : linkType ∈ types) :
    Maintains (fun s => P s.kb)
      (saveNarrated platform (.n4jkb store) save callers this u calls parent key linkType)
      fun _ => True := by
  refine (maintains_unrecorded (maintains_uriText u)).bind fun uri _ => ?_
  refine maintains_get_bind fun s _ => ?_
  split
  · refine (maintains_unrecorded (maintains_getURI u)).bind fun child _ => ?_
    exact (maintains_createLink kept _ _ _ member).bind fun _ _ => maintains_pure trivial
  · refine Maintains.bind (maintains_modify fun _ => id) fun _ _ => ?_
    refine (maintains_saveResource kept _ _ _ member).bind fun res _ => ?_
    refine Maintains.foldlM _ (fun call listed res _ => ?_) trivial
    exact maintains_saveInto saves .child (maintains_getURI u) res (asks call listed)
      (List.Subset.trans call.resource.typesBelow_subset all) (all (typed call listed))

theorem maintains_saveHowTo (i : ℕ) (parent : Option ℕ) (key : String) (member : linkType ∈ types) :
    Maintains (fun s => P s.kb)
      (HowTo.save platform (.n4jkb store) store save callers i parent key linkType)
      fun _ => True := by
  have default : defaultLinkName ∈ types := all (by decide)
  refine (maintains_saveResource kept _ _ _ member).bind fun res _ => ?_
  refine Maintains.foldlM _ (fun x _ res _ => ?_) trivial
  refine (maintains_unrecorded (maintains_getURI _)).bind fun this _ => ?_
  refine (maintains_unrecorded (maintains_uriText _)).bind fun key _ => ?_
  refine (maintains_saveResource kept _ _ _ default).bind fun ok _ => ?_
  refine Maintains.bind (Maintains.forM _ fun entry _ => ?_) fun _ _ => maintains_pure trivial
  refine (maintains_unrecorded (maintains_getURI _)).bind fun x _ => ?_
  refine (maintains_unrecorded (maintains_uriText _)).bind fun key _ => ?_
  refine (maintains_withEmptyList (saves _ _ _ _ _ ?_ default)).bind fun _ _ => ?_
  · exact List.Subset.trans entry.2.typesBelow_subset all
  · exact maintains_pure trivial

theorem maintains_saveSolution (i : ℕ) (parent : Option ℕ) (key : String)
    (member : linkType ∈ types) :
    Maintains (fun s => P s.kb)
      (Solution.save platform (.n4jkb store) store save callers i parent key linkType)
      fun _ => True := by
  refine (maintains_saveResource kept _ _ _ member).bind fun res _ => ?_
  refine Maintains.foldlM _ (fun x _ res _ => ?_) trivial
  refine (maintains_unrecorded (maintains_getURI _)).bind fun this _ => ?_
  refine (maintains_unrecorded (maintains_uriText _)).bind fun key _ => ?_
  exact (maintains_saveHowTo kept saves all _ _ _ (all (by decide))).bind fun ok _ =>
    maintains_pure trivial

theorem maintains_saveSolvedIssue (i : ℕ) (parent : Option ℕ) (key : String)
    (member : linkType ∈ types) :
    Maintains (fun s => P s.kb)
      (SolvedIssue.save platform (.n4jkb store) store save callers i parent key linkType)
      fun _ => True := by
  refine (maintains_saveResource kept _ _ _ member).bind fun _ _ => ?_
  refine (maintains_unrecorded (maintains_getURI _)).bind fun this _ => ?_
  refine (maintains_withEmptyList (saves _ _ _ _ _ ?_ (all (by decide)))).bind fun _ _ => ?_
  · exact List.Subset.trans graphTypes_subset_issueTypes all
  · refine (maintains_unrecorded (maintains_getURI _)).bind fun this _ => ?_
    exact maintains_saveSolution kept saves all _ _ _ (all (by decide))

end Saves

/-- A property that is kept by new nodes and relationships of the types is kept by a save. -/
theorem maintains_save (kept : KB.Kept types P) (stack : ℕ) (callers : List CallSite)
    (r : SavedResource) (parent : Option ℕ) (key linkType : String) (below : r.typesBelow ⊆ types)
    (member : linkType ∈ types) :
    Maintains (fun s => P s.kb)
      (save platform (.n4jkb store) store stack callers r parent key linkType) fun _ => True := by
  induction stack generalizing callers r parent key linkType with
  | zero => exact maintains_throw _
  | succ stack ih =>
    change Maintains _ (saveWith platform (.n4jkb store) store _ callers r parent key linkType) _
    unfold saveWith
    split
    · exact maintains_saveWithChildren kept ih (.concept _) below _ _ member
    · exact maintains_saveWithChildren kept ih (.phrase _) below _ _ member
    · exact maintains_saveWithChildren kept ih (.network _) below _ _ member
    · refine maintains_saveNarrated kept ih below _ _ (fun call listed => ?_)
        (fun call listed => ?_) _ _ member
      · obtain ⟨p, -, rfl⟩ := List.mem_map.mp listed
        exact maintains_keyText (Heap.child phrasesLinkName (.phrase p))
      · obtain ⟨p, -, rfl⟩ := List.mem_map.mp listed
        exact (by decide : phrasesLinkName ∈ issueTypes)
    · refine maintains_saveNarrated kept ih below _ _ (fun call listed => ?_)
        (fun call listed => ?_) _ _ member
      · obtain ⟨x, -, rfl⟩ := List.mem_map.mp listed
        exact maintains_uriText _
      · obtain ⟨x, -, rfl⟩ := List.mem_map.mp listed
        exact (by decide : phrasesLinkName ∈ issueTypes)
    · exact maintains_saveSolvedIssue kept ih below _ _ _ member
    all_goals exact maintains_saveResource kept _ _ _ member

end Reporting

end ThinkingUnderstanding
