import ThinkingUnderstanding.Persistence.Identity

/-!
# Are the links of a concept restored?

A link is saved as two relationships from the node of the concept it belongs to, one to each
end. It is read back from the relationships to the sources alone: both ends of the new link are
made of the node of the source, and they are copies, not the concepts that are loaded from
the nodes. A link whose source is the concept itself is not read at all, because a relationship
that ends at the node it is read from is passed over.

## Main definitions

* `LinksRestored` — the loaded concept has the links of the one that was saved
* `KeepsNode` — what a save leaves of the node of a resource that has been stored

## Main results

* `saveWithChildren_cases` — what a `save` does
* `keepsNode_save`, `type_of_relationship_of_saved` — the relationships from the node of the root
* `linksRestored_iff` — the links are restored when there are none
-/

namespace ThinkingUnderstanding

open Math Semantics

/-- The loaded concept has, in some order, links between the concepts that are loaded for the
ends of the links of the saved one, with the same names. -/
def LinksRestored (s t w : World) (c c' : ConceptRef) : Prop :=
  ∃ links, (w.heap.linksOf c').Perm links ∧ List.Forall₂ (fun l l' =>
    Reloaded s t w l.source l'.source ∧ Reloaded s t w l.destination l'.destination ∧
      (s.heap.uri l.uri).name = (w.heap.uri l'.uri).name) (s.heap.linksOf c) links

/-! ### The node of a resource that has been stored -/

section Saving

variable {platform : Platform} {n : ℕ} {u : UriRef} {allowed : String → Prop} {s t : World}

/-- The number of the node of a resource is asked for, or cannot be read. -/
theorem run_get_cases (r : ResourceRef) (s : World) :
    (KBMap.get r).run s = .ok (KBMap.number (s.heap.uid r)) s ∨
      ∃ e, (KBMap.get r).run s = .error e s := by
  simp only [KBMap.get, EStateM.run_bind, EStateM.run_get, KBMap.number]
  split_ifs
  · exact Or.inl rfl
  · cases parseLong (s.heap.uid r) with
    | some id => exact Or.inl rfl
    | none => exact Or.inr ⟨_, rfl⟩

/-- A `save` ends with an exception before anything has happened, makes a relationship to the
node of a resource whose uid is in the list, or stores the resource and saves its children. -/
theorem saveWithChildren_cases {next : Saver} {loops : Heap → List Child} (r : ResourceRef)
    (parent : Option ℕ) (key linkType : String) (s : World) :
    (∃ e, (saveWithChildren platform next loops r parent key linkType).run s = .error e s) ∨
    (s.heap.uid r ≠ "" ∧ s.heap.uid r ∈ s.saved ∧
      (saveWithChildren platform next loops r parent key linkType).run s =
        (N4JKB.createLink parent (KBMap.number (s.heap.uid r)) linkType key).run s) ∨
    ((s.heap.uid r = "" ∨ s.heap.uid r ∉ s.saved) ∧
      (saveWithChildren platform next loops r parent key linkType).run s =
        (forM (loops (s.store r parent key linkType).heap) (saveChild platform next r)).run
          (s.store r parent key linkType)) := by
  -- evaluating the uid can fail; otherwise it is compared with what has been saved
  rcases run_get_cases r s with got | ⟨e, raised⟩
  case inr => exact Or.inl ⟨e, by simp only [saveWithChildren, EStateM.run_bind, raised]⟩
  case inl =>
    right
    by_cases known : s.heap.uid r ≠ "" ∧ s.heap.uid r ∈ s.saved
    · refine Or.inl ⟨known.1, known.2, ?_⟩
      simp only [saveWithChildren, EStateM.run_bind, got, EStateM.run_get, checkIfSaved,
        if_neg known.1, if_pos known.2]
      cases (N4JKB.createLink parent (KBMap.number (s.heap.uid r)) linkType key).run s with
      | ok a t => rfl
      | error e t => rfl
    · have unknown : s.heap.uid r = "" ∨ s.heap.uid r ∉ s.saved := by
        by_cases none : s.heap.uid r = ""
        · exact Or.inl none
        · exact Or.inr fun member => known ⟨none, member⟩
      refine Or.inr ⟨unknown, ?_⟩
      have assigned := Heap.uid_modifyURI_self s.heap r fun uri =>
        { uri with uid := toString (s.kb.upcoming 0) }
      have stored : (N4JKB.saveResource r parent key linkType >>= fun _ => appendToSave r).run
          { s with saved := s.saved ++ if s.heap.uid r = "" then [] else [s.heap.uid r] } =
            .ok () (s.store r parent key linkType) := by
        refine run_bind_eq_ok_iff.mpr ⟨(), _, rfl, ?_⟩
        rw [run_appendToSave (by rw [assigned]; exact toString_nat_ne_empty _), assigned]
        rfl
      obtain ⟨_, _, first, second⟩ := run_bind_eq_ok_iff.mp stored
      simp only [saveWithChildren, EStateM.run_bind, got, EStateM.run_get,
        run_checkIfSaved_of_unsaved unknown, Bool.false_eq_true, if_false, first, second]

/-- The node exists, and the URI object has its number, which the list of uids knows. -/
structure IsNodeOf (n : ℕ) (u : UriRef) (s : World) : Prop where
  present : s.kb.HasNode n
  apart : n ≠ KB.rootId
  named : (s.heap.uri u).uid = toString n
  noted : toString n ∈ s.saved

/-- As long as the node is that of the URI object, it stays so, no other URI object gets its
number, and the relationships that are added from it have types that are allowed. -/
structure KeepsNode (n : ℕ) (u : UriRef) (allowed : String → Prop) (s t : World) : Prop where
  refs : t.heap.uriRef = s.heap.uriRef
  stays : IsNodeOf n u s → IsNodeOf n u t
  added : IsNodeOf n u s → ∀ rel ∈ t.kb.relationships, rel.startNode = n →
    rel ∈ s.kb.relationships ∨ allowed rel.type
  others : IsNodeOf n u s → ∀ v, KBMap.number (t.heap.uri v).uid = some n →
    KBMap.number (s.heap.uri v).uid = some n

instance : IsPreorder World (KeepsNode n u allowed) where
  refl _ := ⟨rfl, id, fun _ _ member _ => Or.inl member, fun _ _ same => same⟩
  trans _ _ _ first second :=
    { refs := second.refs.trans first.refs
      stays := second.stays ∘ first.stays
      added := by
        intro node rel member starts
        rcases second.added (first.stays node) rel member starts with old | type
        · exact first.added node rel old starts
        · exact Or.inr type
      others := fun node v same => first.others node v (second.others (first.stays node) v same) }

/-- A change of a URI object that leaves its uid as it is. -/
theorem KeepsNode.uris (s : World) (v : UriRef) {f : KnowledgeURI → KnowledgeURI}
    (uid : ∀ uri, (f uri).uid = uri.uid) :
    KeepsNode n u allowed s { s with heap := s.heap.modifyURI v f } := by
  have same : ∀ v', ((s.heap.modifyURI v f).uri v').uid = (s.heap.uri v').uid := by
    intro v'
    rw [Heap.uri, Heap.modifyURI, Arena.get_modify]
    split
    case isTrue here => rw [uid, here, Heap.uri]
    case isFalse => rfl
  constructor
  case refs => rfl
  case stays =>
    intro node
    exact { node with named := (same u).trans node.named }
  case added => exact fun _ _ member _ => Or.inl member
  case others =>
    intro _ v'
    rw [same]
    exact id

theorem keepsNode_uriText (v : UriRef) :
    Respects (KeepsNode n u allowed) (uriText platform v) := by
  refine respects_get.bind fun s => ?_
  dsimp only
  split
  · exact respects_pure _
  · split_ifs
    · have assigned : Respects (KeepsNode n u allowed) (modify fun s => { s with
          heap := s.heap.modifyURI v fun uri => { uri with cached := some uri.format } } :
            KBProgram PUnit) := fun t => KeepsNode.uris t v fun _ => rfl
      exact assigned.bind fun _ => respects_pure _
    · exact respects_throw _

theorem keepsNode_keyText (child : Child) :
    Respects (KeepsNode n u allowed) (child.keyText platform) := by
  unfold Child.keyText
  cases child.key with
  | resourceURI => exact respects_get.bind fun _ => keepsNode_uriText _
  | linkName text => exact respects_pure text

theorem keepsNode_createLink {parent : Option ℕ} {linkType : String}
    (type : parent = some n → allowed linkType) (child : Option ℕ) (key : String) :
    Respects (KeepsNode n u allowed) (N4JKB.createLink parent child linkType key) := by
  intro s
  simp only [N4JKB.createLink, EStateM.run_bind, EStateM.run_get]
  cases starts : s.kb.findNode parent with
  | none => exact refl s
  | some parentNode =>
    cases s.kb.findNode child with
    | none => exact refl s
    | some childNode =>
      -- the relationship starts at the parent that was given
      have from_ : parent = some parentNode.1 := by
        cases parent with
        | none => cases starts
        | some id =>
          rw [KB.findNode] at starts
          split_ifs at starts
          exact congrArg (some ∘ Subtype.val) (Option.some.inj starts)
      constructor
      case refs => rfl
      case stays => exact fun node => { node with }
      case added =>
        intro _ rel member start
        rcases List.mem_append.mp member with old | new
        · exact Or.inl old
        · rw [List.mem_singleton.mp new] at start ⊢
          exact Or.inr (type (start ▸ from_))
      case others => exact fun _ _ same => same

/-- The uids after a resource has been stored. -/
theorem World.uid_store (s : World) (r : ResourceRef) (parent : Option ℕ) (key linkType : String)
    (v : UriRef) : ((s.store r parent key linkType).heap.uri v).uid =
      if v = s.heap.uriRef r then toString (s.kb.upcoming 0) else (s.heap.uri v).uid := by
  change ((s.heap.uris.modify (s.heap.uriRef r) fun uri =>
    { uri with uid := toString (s.kb.upcoming 0) }).get v).uid = _
  rw [Arena.get_modify]
  split <;> rfl

/-- A resource is stored below a parent, under another URI object. -/
theorem KeepsNode.store {r : ResourceRef} {parent : Option ℕ} {linkType : String}
    (other : IsNodeOf n u s → s.heap.uid r ≠ toString n)
    (type : parent = some n → allowed linkType) (key : String) :
    KeepsNode n u allowed s (s.store r parent key linkType) := by
  have fresh : IsNodeOf n u s → s.kb.upcoming 0 ≠ n := by
    intro node same
    exact s.kb.upcoming_fresh 0 (same ▸ node.present)
  constructor
  case refs => rfl
  case stays =>
    intro node
    refine ⟨?_, node.apart, ?_, ?_⟩
    · exact List.mem_map.mpr ((List.mem_map.mp node.present).imp fun _ has =>
        ⟨List.mem_append_left _ has.1, has.2⟩)
    · have apart : u ≠ s.heap.uriRef r := by
        rintro rfl
        exact other node node.named
      rw [World.uid_store, if_neg apart]
      exact node.named
    · exact List.mem_append_left _ (List.mem_append_left _ node.noted)
  case added =>
    intro node rel member start
    rcases List.mem_append.mp member with old | new
    · exact Or.inl old
    · rw [List.mem_singleton.mp new] at start ⊢
      right
      apply type
      -- a parent without a node stands for the root, which the node is not
      have found : (s.kb.getNodeById parent : ℕ) = n := start
      cases parent with
      | none => exact absurd found.symm node.apart
      | some id =>
        rw [KB.getNodeById] at found
        split_ifs at found
        · exact congrArg some found
        · exact absurd found.symm node.apart
  case others =>
    intro node v same
    rw [World.uid_store] at same
    split at same
    · rw [KBMap.number_toString, Option.some_inj] at same
      exact absurd same (fresh node)
    · exact same

/-- One turn of the loop of a resource. -/
theorem keepsNode_saveChild {next : Saver} {this : ResourceRef} {child : Child}
    (saves : ∀ parent key, (parent = some n → allowed child.linkType) →
      Respects (KeepsNode n u allowed) (next child.resource parent key child.linkType))
    (type : KBMap.number (s.heap.uid this) = some n → allowed child.linkType) :
    KeepsNode n u allowed s (finalState ((saveChild platform next this child).run s)) := by
  rcases run_get_cases this s with got | ⟨e, raised⟩
  · have below : Respects (KeepsNode n u allowed)
        (saveBelow platform next (KBMap.number (s.heap.uid this)) child) :=
      (keepsNode_keyText child).bind fun key => saves _ key type
    have kept := below s
    rw [saveChild, EStateM.run_bind, got]
    exact kept
  · rw [saveChild, EStateM.run_bind, raised]
    exact refl s

/-- The loop of a resource: as long as the node is that of the URI object, only children of
types that are allowed are saved below it. -/
theorem keepsNode_loop {next : Saver} {this : ResourceRef} {children : List Child}
    (saves : ∀ child ∈ children, ∀ parent key, (parent = some n → allowed child.linkType) →
      Respects (KeepsNode n u allowed) (next child.resource parent key child.linkType))
    (types : ∀ t, KeepsNode n u allowed s t → KBMap.number (t.heap.uid this) = some n →
      ∀ child ∈ children, allowed child.linkType) :
    KeepsNode n u allowed s (finalState ((forM children (saveChild platform next this)).run s)) := by
  have loop : Maintains (KeepsNode n u allowed s) (forM children (saveChild platform next this))
      fun _ => True := by
    refine Maintains.forM children fun child member t kept => ⟨?_, fun _ _ _ => trivial⟩
    exact IsTrans.trans _ _ _ kept (keepsNode_saveChild (saves child member)
      fun same => types t kept same child member)
  exact loop.keeps (refl s)

instance : IsPreorder World fun s t : World => t.heap.uriRef = s.heap.uriRef where
  refl _ := rfl
  trans _ _ _ first second := second.trans first

/-- No step of a save assigns another URI object. -/
theorem respectedBySteps_uriRef :
    RespectedBySteps fun s t : World => t.heap.uriRef = s.heap.uriRef where
  uris _ _ _ := rfl
  noted _ _ := rfl
  linked _ _ _ _ _ := rfl
  stored _ _ _ _ _ := rfl

/-- Where the node is not that of the URI object, nothing is to be kept. -/
theorem KeepsNode.of_not_isNodeOf (none : ¬ IsNodeOf n u s) (refs : t.heap.uriRef = s.heap.uriRef) :
    KeepsNode n u allowed s t :=
  ⟨refs, fun node => absurd node none, fun node => absurd node none, fun node => absurd node none⟩

/-- A save below another node keeps the node, one below the node itself if its type is
allowed. -/
theorem keepsNode_save (stack : ℕ) {r : ResourceRef} (plain : r.Plain) {parent : Option ℕ}
    {linkType : String} (type : parent = some n → allowed linkType) (key : String) :
    Respects (KeepsNode n u allowed) (save platform stack r parent key linkType) := by
  induction stack generalizing r parent key linkType with
  | zero => exact respects_throw _
  | succ stack ih =>
    intro s
    by_cases node : IsNodeOf n u s
    case neg =>
      exact KeepsNode.of_not_isNodeOf node
        (respects_save_of respectedBySteps_uriRef (stack + 1) r parent key linkType s)
    rw [save_succ_of_recursive stack plain.recursive]
    have known := @saveWithChildren_cases platform (save platform stack)
      (fun heap => heap.children r) r parent key linkType s
    rcases known with ⟨e, run⟩ | ⟨-, -, run⟩ | ⟨unknown, run⟩
    · rw [run]
      exact refl s
    · rw [run]
      exact keepsNode_createLink type _ key s
    · rw [run]
      have stored : KeepsNode n u allowed s (s.store r parent key linkType) := by
        refine KeepsNode.store (fun _ same => ?_) type key
        rw [same] at unknown
        exact unknown.elim (toString_nat_ne_empty n) fun absent => absent node.noted
      refine IsTrans.trans _ _ _ stored (keepsNode_loop (fun child member parent key type =>
        ih (plain.of_mem_children member) type key) fun t kept same _ _ => ?_)
      -- the resource has a node of its own, whose number it keeps
      rw [Heap.uid, kept.refs] at same
      have own := kept.others (stored.stays node) _ same
      rw [World.uid_store, if_pos (congrFun stored.refs r), KBMap.number_toString,
        Option.some_inj] at own
      exact absurd (own ▸ node.present) (s.kb.upcoming_fresh 0)

/-- A resource that is saved with an empty list of uids is stored as the next node. The
relationships from there have types of its children. -/
theorem type_of_relationship_of_saved (allowed : String → Prop) {stack : ℕ} {root : ResourceRef}
    (plain : root.Plain) {parent : Option ℕ} {key linkType : String}
    (saved : (saveAnew platform stack root parent key linkType).run s = .ok () t)
    (types : ∀ child ∈ (World.store { s with saved := [] } root parent key linkType).heap.children
      root, allowed child.linkType) :
    t.heap.uid root = toString (s.kb.upcoming 0) ∧ t.kb.HasNode (s.kb.upcoming 0) ∧
      ∀ rel ∈ t.kb.relationships, rel.startNode = s.kb.upcoming 0 → allowed rel.type := by
  -- saving anew empties the list of uids, so the root is never taken for saved
  let s₀ : World := { s with saved := [] }
  let stored := s₀.store root parent key linkType
  have run : (save platform stack root parent key linkType).run s₀ = .ok () t := by
    obtain ⟨_, _, emptied, run⟩ := run_bind_eq_ok_iff.mp saved
    cases emptied
    exact run
  cases stack with
  | zero => cases run
  | succ stack =>
    rw [save_succ_of_recursive stack plain.recursive] at run
    have known := @saveWithChildren_cases platform (save platform stack)
      (fun heap => heap.children root) root parent key linkType s₀
    rcases known with ⟨e, raised⟩ | ⟨-, member, -⟩ | ⟨-, loop⟩
    · rw [raised] at run
      cases run
    · cases member
    · have fresh : ¬ s.kb.HasNode (s.kb.upcoming 0) := s.kb.upcoming_fresh 0
      have node : IsNodeOf (s.kb.upcoming 0) (s.heap.uriRef root) stored := by
        constructor
        case present => exact (KB.hasNode_upcoming _ : (s.kb.createNode _).HasNode _)
        case apart =>
          intro same
          exact fresh (same ▸ s.kb.hasRoot)
        case named =>
          rw [World.uid_store, if_pos rfl]
        case noted => exact List.mem_append_right _ (List.mem_singleton_self _)
      have kept : KeepsNode (s.kb.upcoming 0) (s.heap.uriRef root) allowed stored t := by
        -- the children are saved while the node of the root is as it was
        have loops : KeepsNode (s.kb.upcoming 0) (s.heap.uriRef root) allowed stored (finalState
            ((forM (stored.heap.children root) (saveChild platform (save platform stack) root)).run
              stored)) :=
          keepsNode_loop (fun child member parent key type =>
            keepsNode_save stack (plain.of_mem_children member) type key) fun _ _ _ => types
        rw [loop] at run
        rw [run] at loops
        exact loops
      have still := kept.stays node
      refine ⟨?_, still.present, fun rel member starts => ?_⟩
      · rw [Heap.uid, kept.refs]
        exact still.named
      · -- no relationship of the old knowledge base starts at a node that is fresh
        refine (kept.added node rel member starts).resolve_left fun old => fresh ?_
        rcases List.mem_append.mp old with older | new
        · exact starts ▸ (s.kb.joined rel older).1
        · rw [List.mem_singleton.mp new] at starts
          exact starts ▸ (s.kb.getNodeById parent).2

/-- The children of a concept without links are no ends of links. -/
theorem Heap.linkType_ne_of_mem_conceptChildren {heap : Heap} {c : ConceptRef}
    (unlinked : heap.linksOf c = []) {child : Child} (member : child ∈ heap.conceptChildren c) :
    child.linkType ≠ conceptLinkSourceName := by
  rw [Heap.conceptChildren, unlinked, List.flatMap_nil, List.append_nil, List.mem_append,
    List.mem_append, List.mem_map, List.mem_map, List.mem_map] at member
  rcases member with (⟨x, -, rfl⟩ | ⟨x, -, rfl⟩) | ⟨x, -, rfl⟩
  · exact (by decide : generalisationLinkName ≠ conceptLinkSourceName)
  · exact (by decide : specialisationLinkName ≠ conceptLinkSourceName)
  · exact (by decide : phrasesLinkName ≠ conceptLinkSourceName)

end Saving

/-! ### The links of a concept that is loaded -/

section Loading

variable {platform : Platform} {w₀ w : World}

theorem run_modifyConcept_eq_ok {c : ConceptRef} {f : Concept → Concept} {m m' : World}
    (run : (modifyConcept c f).run m = .ok () m') :
    m'.heap.concept c = f (m.heap.concept c) ∧ m'.heap.links = m.heap.links := by
  cases run
  exact ⟨Arena.get_modify_self m.heap.concepts c f, rfl⟩

/-- A concept that is loaded from a node that has not been loaded yet gets the links that are
read from the relationships of that node. -/
theorem run_loadConcept_eq_ok {stack : ℕ} {parent : Option ℕ} {key linkType : String}
    {c : ConceptRef} (loaded : LoadedFrom platform w₀ w₀)
    (run : (Concept.load platform stack parent key linkType).run w₀ = .ok (some c) w)
    {selfMap : Node} (found : w₀.kb.loadChild platform parent key linkType = some selfMap)
    (absent : w₀.id2object selfMap.id = none) :
    ∃ m m' links, LoadedFrom platform w₀ m ∧
      (loadLinks platform selfMap.id conceptLinkSourceName).run m = .ok links m' ∧
        (w.heap.concept c).conceptLinks = links ∧ w.heap.links = m'.heap.links := by
  cases stack with
  | zero => cases run
  | succ stack =>
    obtain ⟨_, _, got, run⟩ := run_bind_eq_ok_iff.mp run
    cases got
    dsimp only at run
    rw [found] at run
    obtain ⟨cached, _, looked, run⟩ := run_bind_eq_ok_iff.mp run
    unfold KBMap.loadFromCache at looked
    dsimp only at looked
    split_ifs at looked
    case neg => cases looked
    obtain ⟨_, _, got, same⟩ := run_bind_eq_ok_iff.mp looked
    cases got
    cases same
    rw [absent] at run
    dsimp only at run
    -- from here on the concept is new, and registered
    have nested : ∀ parent key linkType, Maintains (LoadedFrom platform w₀)
        (Concept.load platform stack parent key linkType) fun _ => True :=
      LoadedFrom.maintains_loadConcept stack
    have child parent key linkType := LoadedFrom.maintains_orNull (nested parent key linkType)
    obtain ⟨uri, _, made, run⟩ := run_bind_eq_ok_iff.mp run
    cases made
    obtain ⟨res, _, made, run⟩ := run_bind_eq_ok_iff.mp run
    cases made
    obtain ⟨_, m₁, registered, run⟩ := run_bind_eq_ok_iff.mp run
    have registers : Maintains (LoadedFrom platform w₀) (do
        let uri ← createURI (KnowledgeURI.ofMap platform selfMap)
        let res ← createConcept
          { content := { value := selfMap.properties.content.getD ""
                         name := selfMap.properties.content.getD "" }
            uri := uri
            probability := .ofMap selfMap }
        KBMap.register (.concept res) selfMap.id
        pure res) fun _ => True :=
      LoadedFrom.maintains_registerNew (KB.node_of_loadChild found) (fun _ => rfl) (fun _ => rfl)
        fun _ => maintains_pure trivial
    have loaded₁ : LoadedFrom platform w₀ m₁ := by
      cases registered
      exact registers.keeps loaded
    obtain ⟨_, m₂, first, run⟩ := run_bind_eq_ok_iff.mp run
    have loaded₂ := (LoadedFrom.maintains_loadFrames child _ _).keeps_of_run first loaded₁
    obtain ⟨generalisation, m₃, made, run⟩ := run_bind_eq_ok_iff.mp run
    have loaded₃ := (LoadedFrom.maintains_createConceptLine _).keeps_of_run made loaded₂
    obtain ⟨_, m₄, second, run⟩ := run_bind_eq_ok_iff.mp run
    have loaded₄ := (LoadedFrom.maintains_loadFrames child _ _).keeps_of_run second loaded₃
    obtain ⟨specialisation, m₅, made, run⟩ := run_bind_eq_ok_iff.mp run
    have loaded₅ := (LoadedFrom.maintains_createConceptLine _).keeps_of_run made loaded₄
    obtain ⟨_, m₆, third, run⟩ := run_bind_eq_ok_iff.mp run
    have loaded₆ := (LoadedFrom.maintains_loadFrames
      (LoadedFrom.maintains_loadPhrase stack) _ _).keeps_of_run third loaded₅
    obtain ⟨phrases, m₇, made, run⟩ := run_bind_eq_ok_iff.mp run
    have loaded₇ := (LoadedFrom.maintains_createPhraseLine _).keeps_of_run made loaded₆
    obtain ⟨links, m₈, read, run⟩ := run_bind_eq_ok_iff.mp run
    obtain ⟨_, _, assigned, run⟩ := run_bind_eq_ok_iff.mp run
    obtain ⟨concept, sameLinks⟩ := run_modifyConcept_eq_ok assigned
    cases run
    exact ⟨m₇, m₈, links, loaded₇, read, congrArg Concept.conceptLinks concept, sameLinks⟩

/-- Where no relationship of the type starts at a node, no link is read. -/
theorem run_loadLinks_of_none {id : ℕ} (present : w.kb.HasNode id) {linkType : String}
    (none : ∀ rel ∈ w.kb.relationships, rel.startNode = id → rel.type ≠ linkType) :
    (loadLinks platform id linkType).run w = .ok [] w := by
  have filtered : ((platform.order (w.kb.relationshipsOf id linkType)).filter fun rel =>
      rel.endNode ≠ id) = [] := by
    rw [List.filter_eq_nil_iff]
    intro rel member elsewhere
    rw [(platform.order_perm _).mem_iff, KB.mem_relationshipsOf] at member
    rw [decide_eq_true_eq] at elsewhere
    exact none rel member.1 (member.2.1.resolve_right elsewhere) member.2.2
  have empty : w.kb.loadChildrenMap platform (some id) linkType = .ofList [] := by
    rw [KB.loadChildrenMap, KB.getNodeById_of_hasNode present, filtered]
    rfl
  have keys : w.kb.childKeys platform (some id) linkType = [] := by
    rw [KB.childKeys, empty]
    exact List.perm_nil.mp (platform.keyOrder_perm [])
  rw [loadLinks, EStateM.run_bind, EStateM.run_get]
  dsimp only
  rw [keys]
  rfl

end Loading

/-- The links of a concept are restored exactly when there are none: for every graph, every
knowledge base and every parent, as long as the key leads to the node that the concept has been
stored as. -/
theorem linksRestored_iff (platform : Platform) (stack stack' : ℕ) (s t w₀ w : World)
    (c c' : ConceptRef) (parent : Option ℕ) (key linkType : String) (id : ℕ)
    (saved : (saveAnew platform stack (.concept c) parent key linkType).run s = .ok () t)
    (stored : t.heap.uid (.concept c) = toString id) (fresh : FreshProcess t w₀)
    (found : t.kb.loadChild platform parent key linkType = some (t.kb.node id))
    (loaded : (Concept.load platform stack' parent key linkType).run w₀ = .ok (some c') w) :
    LinksRestored s t w c c' ↔ s.heap.linksOf c = [] := by
  have start : LoadedFrom platform w₀ w₀ := .of_freshProcess fresh
  have final : LoadedFrom platform w₀ w :=
    (LoadedFrom.maintains_loadConcept stack' parent key linkType).keeps_of_run loaded start
  obtain ⟨m, m', links, before, read, given, same⟩ := run_loadConcept_eq_ok start loaded
    (fresh.kb ▸ found) (fresh.empty _)
  rw [w₀.kb.id_node] at read
  constructor
  · rintro ⟨restored, perm, pairs⟩
    by_contra linked
    obtain ⟨l, rest, split⟩ := List.exists_cons_of_ne_nil linked
    rw [split] at pairs
    obtain ⟨l', rest', ⟨⟨id', -, -, -, registered⟩, -⟩, -, rfl⟩ := List.forall₂_cons_left_iff.mp pairs
    obtain ⟨i, member, rfl⟩ := List.mem_map.mp (perm.mem_iff.mpr List.mem_cons_self)
    -- the link that is to be its counterpart is new, and its source is a copy
    rw [given] at member
    obtain ⟨new, inside⟩ := (before.run_loadLinks id conceptLinkSourceName).2 links m' read i member
    exact (final.detached i new (same ▸ inside) _ (Or.inl rfl)).2 id' registered
  · intro unlinked
    have plain : (ResourceRef.concept c).Plain := trivial
    -- the name that the concept gets from the node does not change its links
    have unlinked' : (World.store { s with saved := [] } (.concept c) parent key
        linkType).heap.linksOf c = [] := unlinked
    obtain ⟨named, present, types⟩ := type_of_relationship_of_saved (· ≠ conceptLinkSourceName)
      plain saved fun _ => Heap.linkType_ne_of_mem_conceptChildren unlinked'
    obtain rfl := toString_nat_injective (named.symm.trans stored)
    have kb : m.kb = t.kb := before.kb.trans fresh.kb
    rw [run_loadLinks_of_none (kb ▸ present) (kb ▸ types)] at read
    cases read
    have empty : w.heap.linksOf c' = [] := by
      rw [Heap.linksOf, given]
      rfl
    rw [LinksRestored, empty, unlinked]
    exact ⟨[], .refl _, .nil⟩

/-! ### A user who has a device -/

/-- The user who has been saved is loaded in the new process. -/
def userLoaded : World :=
  finalState ((Concept.load .plain 3 (some KB.rootId) "user" defaultLinkName).run userRestarted)

theorem user_linksRestored :
    LinksRestored userBeforeSaving userAfterSaving userLoaded 1 0 ↔
      userBeforeSaving.heap.linksOf 1 = [] :=
  linksRestored_iff .plain 3 3 userBeforeSaving userAfterSaving userRestarted userLoaded 1 0
    (some KB.rootId) "user" defaultLinkName 1 run_userAfterSaving (by decide +kernel)
    ⟨rfl, fun _ => rfl⟩ (by decide +kernel) (eq_ok_of_returned (by decide +kernel))

/-- A user and a device, with a link from the user to the device. -/
def ownerBeforeSaving : World where
  heap :=
    { uris := .ofList [{ name := "user" }, { name := "device" }, { name := "has" }]
      conceptLines := .ofList [{}]
      phraseLines := .ofList [{}]
      concepts := .ofList
        [{ generalisations := some 0, specialisations := some 0, phrases := some 0, uri := 0,
            conceptLinks := [0] },
          { generalisations := some 0, specialisations := some 0, phrases := some 0, uri := 1,
            conceptLinks := [0] }]
      links := .ofList [{ source := 0, destination := 1, uri := 2 }] }
  kb := .onlyRoot
  id2object _ := none

/-- The user has been saved, and the device with it. -/
def ownerAfterSaving : World :=
  finalState ((saveAnew .plain 3 (.concept 0) (some KB.rootId) "user" defaultLinkName).run
    ownerBeforeSaving)

/-- A new process. -/
def ownerRestarted : World where
  heap := {}
  kb := ownerAfterSaving.kb
  id2object _ := none

/-- The user has been loaded. -/
def ownerLoaded : World :=
  finalState ((Concept.load .plain 3 (some KB.rootId) "user" defaultLinkName).run ownerRestarted)

/-- The user has a link to the device before, and the user who is loaded has none. -/
theorem owner_forgets_device :
    (saveAnew .plain 3 (.concept 0) (some KB.rootId) "user" defaultLinkName).run
      ownerBeforeSaving = .ok () ownerAfterSaving ∧
    FreshProcess ownerAfterSaving ownerRestarted ∧
    (Concept.load .plain 3 (some KB.rootId) "user" defaultLinkName).run ownerRestarted =
      .ok (some 0) ownerLoaded ∧
    Reloaded ownerBeforeSaving ownerAfterSaving ownerLoaded 0 0 ∧
    ¬ LinksRestored ownerBeforeSaving ownerAfterSaving ownerLoaded 0 0 := by
  have fresh : FreshProcess ownerAfterSaving ownerRestarted :=
    ⟨by rw [ownerRestarted], fun _ => rfl⟩
  refine ⟨eq_ok_of_returned (by decide +kernel), fresh,
    eq_ok_of_returned (by decide +kernel), ?_, ?_⟩
  · exact ⟨1, by decide +kernel, by decide +kernel, by decide +kernel, by decide +kernel⟩
  · rintro ⟨links, restored, pairs⟩
    have before : (ownerBeforeSaving.heap.linksOf 0).length = 1 := by decide +kernel
    have after : (ownerLoaded.heap.linksOf 0).length = 0 := by decide +kernel
    have equal := pairs.length_eq.trans restored.length_eq.symm
    omega

end ThinkingUnderstanding
