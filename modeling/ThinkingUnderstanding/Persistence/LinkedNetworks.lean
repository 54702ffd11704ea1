import ThinkingUnderstanding.Persistence.ConceptNetworks
import ThinkingUnderstanding.Persistence.StoredSolutions

/-!
# Networks with links, saved and loaded

The links of a network are saved last, each as a node of its own below that of the network. No
other save looks at them. So a network is saved as if it had no links, and then its links are
stored, which changes no text. What is loaded besides the links is read from relationships of
other types, and so the network can be loaded with its links when it can be without them.

Whether what is loaded is the network that was saved is another matter: its links are not.

## Main definitions

* `World.withLinks` — the state in which a network has the given links
* `SavePlan.keptURI` — the URI objects once everything has been saved, as far as texts tell
* `LinkedNetworkStorable` — when a network with links can be stored and read

## Main results

* `forgets_save_withLinks` — a save does not see which links a network has
* `LinkedNetworkStorable.exists_run` — the network is saved
* `LinkedNetworkStorable.exists_run_load` — it can be loaded
-/

namespace ThinkingUnderstanding

open Math Semantics

/-! ### Without the links -/

/-- The network has no links. -/
def Heap.withoutLinks (n : NetworkRef) (heap : Heap) : Heap :=
  { heap with networks := heap.networks.modify n fun network => { network with links := [] } }

def World.withoutLinks (n : NetworkRef) (s : World) : World :=
  { s with heap := s.heap.withoutLinks n }

section WithoutLinks

variable {n : NetworkRef}

namespace Heap

variable (heap : Heap)

theorem network_withoutLinks (m : NetworkRef) : (heap.withoutLinks n).network m =
    if m = n then { heap.network n with links := [] } else heap.network m :=
  Arena.get_modify heap.networks n m fun network => { network with links := [] }

theorem uriRef_withoutLinks : (heap.withoutLinks n).uriRef = heap.uriRef := by
  funext r
  cases r with
  | network m =>
    rw [uriRef, uriRef, network_withoutLinks]
    split_ifs with here
    · rw [here]
    · rfl
  | _ => rfl

theorem uid_withoutLinks (r : ResourceRef) : (heap.withoutLinks n).uid r = heap.uid r := by
  rw [uid, uriRef_withoutLinks]
  rfl

theorem exported_withoutLinks : (heap.withoutLinks n).exported = heap.exported := by
  funext r
  cases r with
  | network m =>
    rw [exported, exported, network_withoutLinks]
    split_ifs with here
    · rw [here]
      rfl
    · rfl
  | _ => rfl

/-- Concepts and phrases are saved with the same resources. -/
theorem children_withoutLinks {r : ResourceRef} (plain : r.Plain) :
    (heap.withoutLinks n).children r = heap.children r := by
  cases r with
  | concept c => rfl
  | phrase p => rfl
  | link l => exact plain.elim
  | network m => exact plain.elim

/-- A network is saved with its links after everything else. -/
theorem children_network_eq_append (n : NetworkRef) : heap.children (.network n) =
    (heap.withoutLinks n).children (.network n) ++
      (heap.network n).links.map (child linksLinkName ∘ .link) := by
  simp [children, networkChildren, network_withoutLinks]

/-- Without the links, nothing else is reached than with them. -/
theorem reaches_of_reaches_withoutLinks {r r' : ResourceRef}
    (reaches : DepthFirst.Reaches (heap.withoutLinks n).children Child.resource r r') :
    DepthFirst.Reaches heap.children Child.resource r r' := by
  refine Relation.ReflTransGen.mono ?_ r r' reaches
  rintro r r' ⟨child, edge, rfl⟩
  refine ⟨child, ?_, rfl⟩
  cases r with
  | network m =>
    by_cases here : m = n
    · rw [here] at edge ⊢
      rw [children_network_eq_append]
      exact List.mem_append_left _ edge
    · rwa [children, networkChildren, network_withoutLinks, if_neg here] at edge
  | _ => exact edge

end Heap

/-- A program that does not see which links the network has. -/
abbrev Unlinked {α : Type} (n : NetworkRef) (p : KBProgram α) : Prop :=
  Forgets (World.withoutLinks n) id p p

theorem forgets_uriText_withoutLinks (platform : Platform) (u : UriRef) :
    Unlinked n (uriText platform u) := by
  refine Forgets.get_bind fun s => ?_
  have same : (World.withoutLinks n s).heap.uri u = s.heap.uri u := rfl
  rw [same]
  dsimp only
  cases (s.heap.uri u).cached with
  | some text => exact .pure rfl
  | none =>
    dsimp only
    split_ifs
    · exact fun _ => rfl
    · exact .throw _

theorem forgets_keyText_withoutLinks (platform : Platform) (child : Child) :
    Unlinked n (child.keyText platform) := by
  unfold Child.keyText
  cases child.key with
  | linkName text => exact .pure rfl
  | resourceURI =>
    refine Forgets.get_bind fun s => ?_
    have same : (World.withoutLinks n s).heap.uriRef = s.heap.uriRef :=
      Heap.uriRef_withoutLinks s.heap
    rw [same]
    exact forgets_uriText_withoutLinks platform _

theorem forgets_get_withoutLinks (r : ResourceRef) : Unlinked n (KBMap.get r) := by
  refine Forgets.get_bind fun s => ?_
  have same : (World.withoutLinks n s).heap.uid r = s.heap.uid r := Heap.uid_withoutLinks s.heap r
  rw [same]
  dsimp only
  split_ifs
  · exact .pure rfl
  · cases parseLong (s.heap.uid r) with
    | some id => exact .pure rfl
    | none => exact .throw _

theorem forgets_createLink_withoutLinks (parent child : Option ℕ) (linkType key : String) :
    Unlinked n (N4JKB.createLink parent child linkType key) := by
  refine Forgets.get_bind fun s => ?_
  dsimp only [World.withoutLinks]
  cases s.kb.findNode parent with
  | none => exact .throw _
  | some parentNode =>
    cases s.kb.findNode child with
    | none => exact .throw _
    | some childNode => exact fun _ => rfl

theorem forgets_checkIfSaved_withoutLinks (parent : Option ℕ) (key linkType : String)
    (refObject : Option ℕ) (uid : String) :
    Unlinked n (checkIfSaved parent key linkType refObject uid) := by
  unfold checkIfSaved
  split
  · exact .pure rfl
  · refine Forgets.get_bind fun s => ?_
    have same : (World.withoutLinks n s).saved = s.saved := rfl
    rw [same]
    split
    · exact (forgets_createLink_withoutLinks _ _ _ _).bind fun _ => .pure rfl
    · exact fun _ => rfl

theorem forgets_saveResource_withoutLinks (r : ResourceRef) (parent : Option ℕ)
    (key linkType : String) : Unlinked n (N4JKB.saveResource r parent key linkType) := by
  intro s
  have exported : (s.heap.withoutLinks n).exported r = s.heap.exported r :=
    congrFun (Heap.exported_withoutLinks s.heap) r
  have uriRef : (s.heap.withoutLinks n).uriRef r = s.heap.uriRef r :=
    congrFun (Heap.uriRef_withoutLinks s.heap) r
  refine congrArg (EStateM.Result.ok ()) ?_
  dsimp only [World.withoutLinks]
  rw [exported, uriRef]
  rfl

theorem forgets_appendToSave_withoutLinks (r : ResourceRef) : Unlinked n (appendToSave r) := by
  refine Forgets.get_bind fun s => ?_
  have same : (World.withoutLinks n s).heap.uid r = s.heap.uid r := Heap.uid_withoutLinks s.heap r
  rw [same]
  dsimp only
  split_ifs
  all_goals exact fun _ => rfl

/-- A turn of a loop. -/
theorem forgets_saveChild_withoutLinks {platform : Platform} {save : Saver} (r : ResourceRef)
    (child : Child) (alike : ∀ parent key linkType,
      Unlinked n (save child.resource parent key linkType)) :
    Unlinked n (saveChild platform save r child) :=
  (forgets_get_withoutLinks r).bind fun _ =>
    (forgets_keyText_withoutLinks platform child).bind fun _ => alike _ _ _

/-- A save of a concept or a phrase does not see which links a network has. -/
theorem forgets_save_withoutLinks (platform : Platform) (stack : ℕ) {r : ResourceRef}
    (plain : r.Plain)
    (parent : Option ℕ) (key linkType : String) :
    Unlinked n (save platform stack r parent key linkType) := by
  -- on the stack; what a concept or a phrase is saved with is one again
  induction stack generalizing r parent key linkType with
  | zero => exact .throw _
  | succ stack ih =>
    rw [save_succ_of_recursive stack plain.recursive]
    refine (forgets_get_withoutLinks r).bind fun refObject => Forgets.get_bind fun s => ?_
    have uid : (World.withoutLinks n s).heap.uid r = s.heap.uid r :=
      Heap.uid_withoutLinks s.heap r
    rw [uid]
    refine (forgets_checkIfSaved_withoutLinks _ _ _ _ _).bind fun known => ?_
    cases known with
    | true => exact .pure rfl
    | false =>
      refine (forgets_saveResource_withoutLinks r _ _ _).bind fun _ => ?_
      refine (forgets_appendToSave_withoutLinks r).bind fun _ => Forgets.get_bind fun t => ?_
      have children : (World.withoutLinks n t).heap.children r = t.heap.children r :=
        Heap.children_withoutLinks t.heap plain
      dsimp only
      rw [children]
      exact Forgets.forM _ fun child edge => forgets_saveChild_withoutLinks r child fun _ _ _ =>
        ih (plain.of_mem_children edge) _ _ _

/-- Storing a resource neither. -/
theorem World.store_withoutLinks (s : World) (r : ResourceRef) (parent : Option ℕ)
    (key linkType : String) : (s.withoutLinks n).store r parent key linkType =
      (s.store r parent key linkType).withoutLinks n := by
  have exported : (World.withoutLinks n s).heap.exported r = s.heap.exported r :=
    congrFun (Heap.exported_withoutLinks s.heap) r
  have uriRef : (World.withoutLinks n s).heap.uriRef r = s.heap.uriRef r :=
    congrFun (Heap.uriRef_withoutLinks s.heap) r
  have uid : (World.withoutLinks n s).heap.uid r = s.heap.uid r := Heap.uid_withoutLinks s.heap r
  rw [World.store, exported, uriRef, uid]
  rfl

end WithoutLinks

/-! ### The links -/

theorem World.Gains.withTable {platform : Platform} {w w' : World} {added : List Node}
    {rels : List Relationship}
    (gains : w.Gains platform { w' with id2object := w.id2object } added rels)
    (table : ℕ → Option ResourceRef) :
    ({ w with id2object := table } : World).Gains platform { w' with id2object := table } added
      rels :=
  ⟨gains.nodes, gains.relationships, gains.upcoming, rfl, gains.graph, gains.texts, gains.accepted⟩

/-- Links have been stored: a node for each of them, linked by its text. But for the table, nothing
else has been changed than the uids and the kept texts of their URIs. -/
structure World.StoresLinks (platform : Platform) (links : List LinkRef) (w t : World) : Prop where
  gains : ∃ added rels, w.Gains platform { t with id2object := w.id2object } added rels ∧
    added.length = links.length ∧ ∀ rel ∈ rels, rel.type = linksLinkName ∧
      ∃ l ∈ links, rel.key = w.textOf (w.heap.link l).uri
  others : ∀ u, (∀ l ∈ links, (w.heap.link l).uri ≠ u) → t.heap.uri u = w.heap.uri u

section Links

variable {platform : Platform} {stack : ℕ} {r : ResourceRef} {l : LinkRef} {links : List LinkRef}
  {w t : World}

/-- A link is stored as a node of its own. -/
theorem exists_run_saveChild_link (valid : ValidUid (w.heap.uid r))
    (accepted : (w.heap.uri (w.heap.link l).uri).Accepted platform) :
    ∃ t, (saveChild platform (save platform (stack + 1)) r (Heap.child linksLinkName (.link l))).run
        w = .ok () t ∧ w.StoresLinks platform [l] t ∧ ValidUid (t.heap.uid r) := by
  obtain ⟨m, run, asked⟩ := run_uriText_of_accepted accepted
  let text := (w.heap.uri (w.heap.link l).uri).text
  let parent := KBMap.number (w.heap.uid r)
  let stored := m.addResource (w.heap.link l).uri (m.heap.exported (.link l)) parent text
    linksLinkName
  let t : World := { stored with
    id2object := Function.update m.id2object (m.kb.upcoming 0) (some (.link l)) }
  have link : m.heap.link l = w.heap.link l := by
    rw [Heap.link, asked.graph.objects]
    rfl
  have saved :
        (save platform (stack + 1) (.link l) parent text linksLinkName).run m = .ok () t := by
    change EStateM.Result.ok () _ = _
    refine congrArg (EStateM.Result.ok ()) ?_
    change ({ heap := m.heap.modifyURI (m.heap.link l).uri _, kb := _, id2object := _
              saved := _ } : World) = _
    rw [link]
    rfl
  have whole : (saveChild platform (save platform (stack + 1)) r
      (Heap.child linksLinkName (.link l))).run w = .ok () t := by
    refine run_bind_eq_ok_iff.mpr ⟨parent, w, KBMap.run_get valid, ?_⟩
    exact run_bind_eq_ok_iff.mpr ⟨text, m, run, saved⟩
  have gains : w.Gains platform stored _ _ := asked.gains_addResource accepted
    (m.heap.exported (.link l)) parent text linksLinkName
  have table : { t with id2object := w.id2object } = stored := by
    change { stored with id2object := w.id2object } = stored
    rw [← asked.id2object]
    rfl
  rw [← table] at gains
  have uris : ∀ u, t.heap.uri u = if u = (w.heap.link l).uri then
      { m.heap.uri (w.heap.link l).uri with uid := toString (m.kb.upcoming 0) }
      else m.heap.uri u := fun u => Heap.uri_modifyURI _ _ _ _
  refine ⟨t, whole, ⟨⟨_, _, gains, rfl, ?_⟩, fun u other => ?_⟩, ?_⟩
  · intro rel member
    rw [List.mem_singleton.mp member]
    exact ⟨rfl, l, List.mem_singleton_self l, rfl⟩
  · have here : u ≠ (w.heap.link l).uri := (other l (List.mem_singleton_self l)).symm
    rw [uris, if_neg here, asked.others u here]
  · -- the resource has a number, be it that of the link
    have same : t.heap.uriRef r = w.heap.uriRef r := by
      have graph : w.heap.SameGraph t.heap := gains.graph
      exact congrFun graph.uriRef_eq r
    rw [Heap.uid, same, uris]
    split_ifs with here
    · exact validUid_toString _
    · rw [asked.others _ here]
      exact valid

theorem World.StoresLinks.cons (first : w.StoresLinks platform [l] t) {t' : World}
    (rest : t.StoresLinks platform links t') : w.StoresLinks platform (l :: links) t' := by
  obtain ⟨⟨added, rels, gains, count, typed⟩, others⟩ := first
  obtain ⟨⟨added', rels', gains', count', typed'⟩, others'⟩ := rest
  have graph : w.heap.SameGraph t.heap := gains.graph
  have link : t.heap.link = w.heap.link := by
    funext i
    rw [Heap.link, graph.objects]
    rfl
  refine ⟨⟨added ++ added', rels ++ rels', gains.trans (gains'.withTable w.id2object), ?_, ?_⟩, ?_⟩
  · rw [List.length_append, count, count']
    exact Nat.add_comm 1 links.length
  · intro rel member
    rcases List.mem_append.mp member with old | new
    · obtain ⟨type, i, here, key⟩ := typed rel old
      exact ⟨type, i, List.mem_cons.mpr (Or.inl (List.mem_singleton.mp here)), key⟩
    · obtain ⟨type, i, here, key⟩ := typed' rel new
      refine ⟨type, i, List.mem_cons_of_mem _ here, ?_⟩
      rw [key, link]
      exact gains.texts _
  · intro u outside
    rw [others' u fun i member => ?_, others u fun i member => ?_]
    · rw [List.mem_singleton.mp member]
      exact outside l List.mem_cons_self
    · rw [link]
      exact outside i (List.mem_cons_of_mem _ member)

/-- Links, the texts of whose URIs are accepted, are stored. -/
theorem exists_run_saveLinks (valid : ValidUid (w.heap.uid r))
    (accepted : ∀ l ∈ links, (w.heap.uri (w.heap.link l).uri).Accepted platform) :
    ∃ t, (forM (links.map (Heap.child linksLinkName ∘ .link))
        (saveChild platform (save platform (stack + 1)) r)).run w = .ok () t ∧
      w.StoresLinks platform links t := by
  induction links generalizing w with
  | nil => exact ⟨w, rfl, ⟨[], [], .refl w, rfl, List.forall_mem_nil _⟩, fun _ _ => rfl⟩
  | cons l links ih =>
    rw [List.forall_mem_cons] at accepted
    obtain ⟨m, run, stored, valid'⟩ := exists_run_saveChild_link valid accepted.1
    obtain ⟨added, rels, gains, -, -⟩ := stored.gains
    have graph : w.heap.SameGraph m.heap := gains.graph
    have later : ∀ i ∈ links, (m.heap.uri (m.heap.link i).uri).Accepted platform := by
      intro i member
      rw [Heap.link, graph.objects]
      exact (gains.accepted _).mpr (accepted.2 i member)
    obtain ⟨t, run', stored'⟩ := ih valid' later
    refine ⟨t, ?_, stored.cons stored'⟩
    rw [List.map_cons, List.forM_cons]
    exact run_bind_eq_ok_iff.mpr ⟨(), m, run, run'⟩

end Links

/-! ### Networks -/

/-- What has been read of a URI object once everything has been saved: its text is that of the
resource that has it, as it is when it is first asked for. -/
def SavePlan.keptURI (plan : SavePlan) (u : UriRef) : KnowledgeURI :=
  match plan.resources.find? fun r => plan.heap.uriRef r = u with
  | some r => plan.namedURI r
  | none => plan.heap.uri u

/-- When everything has been saved, the texts are those of the plan. -/
theorem SavePlan.Followed.keptURI {plan : SavePlan} {platform : Platform} {t : World}
    (followed : plan.Followed platform plan.arrivals t) (u : UriRef) :
    t.textOf u = (plan.keptURI u).text ∧
      ((t.heap.uri u).Accepted platform ↔ (plan.keptURI u).Accepted platform) := by
  rw [SavePlan.keptURI]
  cases found : plan.resources.find? fun r => plan.heap.uriRef r = u with
  | none =>
    have outside : ∀ r ∈ plan.arrivals.map Child.resource, plan.heap.uriRef r ≠ u := by
      intro r member same
      exact List.find?_eq_none.mp found r member (decide_eq_true same)
    rw [World.textOf, followed.untouched u outside]
    exact ⟨rfl, Iff.rfl⟩
  | some r =>
    have same : plan.heap.uriRef r = u := by simpa using List.find?_some found
    exact same ▸ followed.named r (List.mem_of_find?_eq_some found)

section Linked

variable (platform : Platform) (stack : ℕ) (s : World) (n : NetworkRef) (key linkType : String)

/-- The plan of the save of a network, but for its links. -/
def World.linkedPlan : SavePlan := (s.withoutLinks n).networkPlan stack n key linkType

/-- Without its links the network can be stored and read, and so can its links. -/
structure LinkedNetworkStorable : Prop where
  concepts : NetworkStorable platform stack (s.withoutLinks n) n key linkType
  linksAccepted : ∀ l ∈ (s.heap.network n).links,
    ((s.linkedPlan stack n key linkType).keptURI (s.heap.link l).uri).Accepted platform
  linksRead : ∀ l ∈ (s.heap.network n).links, (KnowledgeURI.ofRaw
    ((s.linkedPlan stack n key linkType).keptURI (s.heap.link l).uri).text).isSome

/-- A network has been saved with its links: in the state `m` all but these had been. -/
structure LinkedNetworkStored (parent : Option ℕ) (m t : World) : Prop where
  followed : (s.linkedPlan stack n key linkType).Followed platform
    (s.linkedPlan stack n key linkType).arrivals (m.withoutLinks n)
  stored : (s.linkedPlan stack n key linkType).Stored (s.kb.getNodeById parent)
    (rootCall (.network n) key linkType) m.kb
  link : m.heap.link = s.heap.link
  links : m.StoresLinks platform (s.heap.network n).links t

end Linked

section Linked

variable {platform : Platform} {stack : ℕ} {s : World} {n : NetworkRef} {parent : Option ℕ}
  {key linkType : String} {objects : List ResourceRef}
  (storable : LinkedNetworkStorable platform stack s n key linkType)
  (savable : NetworkSavable stack (s.withoutLinks n) n objects)

theorem World.unlinked_withoutLinks (s : World) (n : NetworkRef) :
    ((s.withoutLinks n).heap.network n).links = [] := by
  have network : (s.heap.withoutLinks n).network n = { s.heap.network n with links := [] } :=
    (s.heap.network_withoutLinks n).trans (if_pos rfl)
  change ((s.heap.withoutLinks n).network n).links = []
  rw [network]

/-- The state in which the node of a network has been stored, its save having just begun. -/
def World.beginSave (s : World) (n : NetworkRef) (parent : Option ℕ) (key linkType : String) :
    World :=
  ({ s with saved := [] } : World).store (.network n) parent key linkType

theorem World.beginSave_withoutLinks (s : World) (n : NetworkRef) (parent : Option ℕ)
    (key linkType : String) : (s.withoutLinks n).beginSave n parent key linkType =
      (s.beginSave n parent key linkType).withoutLinks n :=
  World.store_withoutLinks { s with saved := [] } (.network n) parent key linkType

/-- A network is stored, and then what it is saved with. -/
theorem run_saveAnew_network (platform : Platform) (stack : ℕ)
    (valid : ValidUid (s.heap.uid (.network n))) :
    (saveAnew platform (stack + 1) (.network n) parent key linkType).run s =
      (forM ((s.beginSave n parent key linkType).heap.children (.network n))
        (saveChild platform (save platform stack) (.network n))).run
          (s.beginSave n parent key linkType) := by
  change (save platform (stack + 1) (.network n) parent key linkType).run { s with saved := [] } = _
  rw [save_succ_of_recursive (r := .network n) stack trivial]
  exact run_save_of_unsaved valid (Or.inr List.not_mem_nil)

/-- What a network is saved with besides its links is saved as without them. -/
theorem exists_run_withoutLinks (valid : ValidUid (s.heap.uid (.network n))) {m₀ : World}
    (run : (saveAnew platform (stack + 1) (.network n) parent key linkType).run (s.withoutLinks n) =
      .ok () m₀) : ∃ m, m.withoutLinks n = m₀ ∧
      (forM ((s.beginSave n parent key linkType).withoutLinks n |>.heap.children (.network n))
        (saveChild platform (save platform stack) (.network n))).run
          (s.beginSave n parent key linkType) = .ok () m := by
  have valid₀ : ValidUid ((s.withoutLinks n).heap.uid (.network n)) :=
    (Heap.uid_withoutLinks s.heap (.network n)).symm ▸ valid
  rw [run_saveAnew_network platform stack valid₀, World.beginSave_withoutLinks] at run
  have alike : Unlinked n (forM ((s.beginSave n parent key linkType).withoutLinks n
      |>.heap.children (.network n)) (saveChild platform (save platform stack) (.network n))) := by
    refine Forgets.forM _ fun child edge => forgets_saveChild_withoutLinks _ _ fun _ _ _ => ?_
    exact forgets_save_withoutLinks platform _
      (Heap.plain_of_mem_children_network (World.unlinked_withoutLinks _ n) edge) _ _ _
  have same := alike (s.beginSave n parent key linkType)
  rw [run] at same
  cases first : (forM ((s.beginSave n parent key linkType).withoutLinks n
      |>.heap.children (.network n)) (saveChild platform (save platform stack) (.network n))).run
        (s.beginSave n parent key linkType) with
  | error e m =>
    rw [first] at same
    exact nomatch same
  | ok _ m =>
    rw [first] at same
    exact ⟨m, (EStateM.Result.ok.inj same).2, rfl⟩

namespace LinkedNetworkStorable

include storable savable

/-- The network is saved. -/
theorem exists_run : ∃ m t, (saveAnew platform stack (.network n) parent key linkType).run s =
      .ok () t ∧ LinkedNetworkStored platform stack s n key linkType parent m t := by
  -- there is stack enough to save a link below the network
  obtain ⟨depth, deeper⟩ : ∃ depth, stack = depth + 2 := by
    have deep := savable.deep
    have some_ := List.length_pos_of_mem savable.member
    exact ⟨stack - 2, by omega⟩
  subst deeper
  have unlinked := s.unlinked_withoutLinks n
  obtain ⟨m₀, run, followed, stored⟩ : ∃ t, (saveAnew platform (depth + 2) (.network n) parent key
      linkType).run (s.withoutLinks n) = .ok () t ∧ _ ∧ _ :=
    storable.concepts.exists_run savable unlinked
  have member : ResourceRef.network n ∈ (s.linkedPlan (depth + 2) n key linkType).resources :=
    storable.concepts.mem_resources savable unlinked .refl
  have valid : ValidUid (s.heap.uid (.network n)) :=
    Heap.uid_withoutLinks s.heap (.network n) ▸ storable.concepts.valid _ member
  obtain ⟨m, same, first⟩ := exists_run_withoutLinks valid run
  subst same
  have link : m.heap.link = s.heap.link := by
    have objects := followed.graph.objects
    change (m.withoutLinks n).heap.link = s.heap.link
    funext l
    rw [Heap.link, objects]
    rfl
  -- then the links are saved
  have numbered : ValidUid (m.heap.uid (.network n)) := by
    have uid := Heap.uid_withoutLinks (n := n) m.heap (.network n)
    rw [← uid]
    exact (followed.numbered _ member).symm ▸ validUid_toString _
  have accepted : ∀ l ∈ (s.heap.network n).links,
      (m.heap.uri (m.heap.link l).uri).Accepted platform := by
    intro l inside
    rw [link]
    exact (followed.keptURI _).2.mpr (storable.linksAccepted l inside)
  obtain ⟨t, second, links⟩ := exists_run_saveLinks (r := .network n) numbered accepted
  refine ⟨m, t, ?_, followed, stored, link, links⟩
  rw [run_saveAnew_network platform (depth + 1) valid, Heap.children_network_eq_append,
    List.forM_append]
  exact run_bind_eq_ok_iff.mpr ⟨(), m, first, second⟩

end LinkedNetworkStorable

end Linked

/-! ### What is then read -/

namespace KB

variable {platform : Platform} {kb kb' : KB} {id : ℕ} {linkType : String}

/-- The keys of a map of children are those of the relationships to other nodes. -/
theorem mem_childKeys {parent : Option ℕ} {key : String} :
    key ∈ kb.childKeys platform parent linkType ↔ ∃ rel ∈ kb.relationships,
      rel.LinksFrom (kb.getNodeById parent) linkType ∧ rel.endNode ≠ kb.getNodeById parent ∧
        rel.key = key := by
  rw [childKeys, (platform.keyOrder_perm _).mem_iff]
  constructor
  · intro listed
    obtain ⟨⟨_, node⟩, entry, rfl⟩ := List.mem_map.mp listed
    obtain ⟨rel, inside, same⟩ := List.mem_map.mp (InsertionMap.mem_of_mem_entries_ofList entry)
    obtain ⟨present, links, other⟩ := (mem_enumerated platform).mp inside
    exact ⟨rel, present, links, other, congrArg Prod.fst same⟩
  · rintro ⟨rel, present, links, other, rfl⟩
    have inside := (mem_enumerated platform).mpr ⟨present, links, other⟩
    obtain ⟨node, entry⟩ := InsertionMap.exists_mem_entries_ofList
      (List.mem_map_of_mem (f := fun rel => (rel.key, kb.node rel.endNode)) inside)
    exact List.mem_map_of_mem (f := Prod.fst) entry

section Alike

variable {types : List String} (alike : kb'.ReadsAs kb types) (present : kb.HasNode id)
include alike present

theorem AcceptedAt.of_readsAs (accepted : kb.AcceptedAt platform id) :
    kb'.AcceptedAt platform id := by
  rw [AcceptedAt, alike.node id present]
  exact accepted

variable (reads : linkType ∈ types)
include reads

theorem KeysRead.of_readsAs (read : kb.KeysRead platform id linkType) :
    kb'.KeysRead platform id linkType := by
  rw [KeysRead, alike.childKeys platform present reads]
  exact read

theorem LeadsTo.of_readsAs {property : ℕ → Prop}
    (leads : kb.LeadsTo platform property id linkType) :
    kb'.LeadsTo platform property id linkType := by
  rw [LeadsTo, alike.childKeys platform present reads]
  intro key listed
  rw [alike.loadChild platform present reads]
  exact leads key listed

end Alike

/-- Of the same nodes, related alike, the same concepts and phrases can be made. -/
theorem Loadable.of_readsAs {types : List String} {concepts phrases : ℕ → Prop}
    (loadable : kb.Loadable platform concepts phrases) (alike : kb'.ReadsAs kb types)
    (present : ∀ id, concepts id ∨ phrases id → kb.HasNode id)
    (reads : [generalisationLinkName, specialisationLinkName, phrasesLinkName,
      conceptLinkSourceName] ⊆ types) : kb'.Loadable platform concepts phrases where
  apart := loadable.apart
  conceptAccepted id holds :=
    (loadable.conceptAccepted id holds).of_readsAs alike (present id (Or.inl holds))
  phraseAccepted id holds :=
    (loadable.phraseAccepted id holds).of_readsAs alike (present id (Or.inr holds))
  generalisations id holds :=
    have here := present id (Or.inl holds)
    have type := reads (by simp)
    ⟨(loadable.generalisations id holds).1.of_readsAs alike here type,
      (loadable.generalisations id holds).2.of_readsAs alike here type⟩
  specialisations id holds :=
    have here := present id (Or.inl holds)
    have type := reads (by simp)
    ⟨(loadable.specialisations id holds).1.of_readsAs alike here type,
      (loadable.specialisations id holds).2.of_readsAs alike here type⟩
  phraseFrames id holds :=
    have here := present id (Or.inl holds)
    have type := reads (by simp)
    ⟨(loadable.phraseFrames id holds).1.of_readsAs alike here type,
      (loadable.phraseFrames id holds).2.of_readsAs alike here type⟩
  links id holds := (loadable.links id holds).of_readsAs alike (present id (Or.inl holds))
    (reads (by simp))
  subPhrases id holds := (loadable.subPhrases id holds).of_readsAs alike (present id (Or.inr holds))
    (reads (by simp))

end KB

/-- The types that are read to find and to load a network, but for that of its links. -/
def unlinkedTypes : List String :=
  [generalisationLinkName, specialisationLinkName, phrasesLinkName, conceptLinkSourceName,
    nodesLinkName, conceptsNetworkName]

namespace LinkedNetworkStored

variable {platform : Platform} {stack : ℕ} {s m t : World} {n : NetworkRef} {parent : Option ℕ}
  {key linkType : String} {objects : List ResourceRef}
  (linked : LinkedNetworkStored platform stack s n key linkType parent m t)

include linked

/-- The links have changed no text. -/
theorem texts (u : UriRef) :
    t.textOf u = ((s.linkedPlan stack n key linkType).keptURI u).text ∧
      ((t.heap.uri u).Accepted platform ↔
        ((s.linkedPlan stack n key linkType).keptURI u).Accepted platform) := by
  obtain ⟨added, rels, gains, -, -⟩ := linked.links.gains
  have kept := linked.followed.keptURI u
  exact ⟨(gains.texts u).trans kept.1, (gains.accepted u).trans kept.2⟩

/-- The numbers of the nodes to come. -/
theorem upcoming (i : ℕ) : t.kb.upcoming i = s.kb.upcoming
    ((s.linkedPlan stack n key linkType).arrivals.length + (s.heap.network n).links.length + i) := by
  obtain ⟨added, rels, gains, count, -⟩ := linked.links.gains
  have first : t.kb.upcoming i = m.kb.upcoming (i + added.length) := gains.upcoming i
  have second : ∀ j, m.kb.upcoming j = s.kb.upcoming _ := linked.followed.upcoming
  rw [first, second, count]
  congr 1
  omega

/-- The URI objects that nothing has which is saved are as they were. -/
theorem untouched {u : UriRef}
    (resources : ∀ r ∈ (s.linkedPlan stack n key linkType).resources, s.heap.uriRef r ≠ u)
    (links : ∀ l ∈ (s.heap.network n).links, (s.heap.link l).uri ≠ u) :
    t.heap.uri u = s.heap.uri u := by
  have before : m.heap.uri u = s.heap.uri u := by
    refine linked.followed.untouched u fun r member => ?_
    change (s.heap.withoutLinks n).uriRef r ≠ u
    rw [Heap.uriRef_withoutLinks]
    exact resources r member
  rw [linked.links.others u fun l inside => ?_, before]
  rw [linked.link]
  exact links l inside

/-- But for the links, everything is read as before they have been stored. -/
theorem readsAs : t.kb.ReadsAs m.kb unlinkedTypes := by
  obtain ⟨added, rels, gains, -, typed⟩ := linked.links.gains
  refine KB.readsAs_of_added gains.nodes gains.relationships fun rel new => ?_
  rw [(typed rel new).1]
  decide

variable (storable : LinkedNetworkStorable platform stack s n key linkType)
  (savable : NetworkSavable stack (s.withoutLinks n) n objects)
include storable savable

theorem getNodeById : (t.kb.getNodeById
    (some ((s.linkedPlan stack n key linkType).nodeOf (.network n))) : ℕ) =
      (s.linkedPlan stack n key linkType).nodeOf (.network n) :=
  linked.readsAs.getNodeById (linked.stored.hasNode
    (storable.concepts.mem_resources savable (s.unlinked_withoutLinks n) .refl))

/-- The keys of the links can be read. -/
theorem linksRead : t.kb.KeysRead platform
    ((s.linkedPlan stack n key linkType).nodeOf (.network n)) linksLinkName := by
  intro text listed
  obtain ⟨rel, present, links, other, rfl⟩ := KB.mem_childKeys.mp listed
  rw [linked.getNodeById storable savable] at links other
  obtain ⟨added, rels, gains, -, typed⟩ := linked.links.gains
  have relationships : t.kb.relationships = m.kb.relationships ++ rels := gains.relationships
  rw [relationships, List.mem_append] at present
  rcases present with old | new
  · -- without links, no key is read that cannot be
    have unlinked := s.unlinked_withoutLinks n
    have here := linked.stored.getNodeById
      (storable.concepts.mem_resources savable unlinked .refl)
    have read : m.kb.KeysRead platform
        ((s.linkedPlan stack n key linkType).nodeOf (.network n)) linksLinkName :=
      storable.concepts.keysReadAt savable unlinked linked.stored .refl (by simp) (by decide)
    exact read rel.key (KB.mem_childKeys.mpr ⟨rel, old, here.symm ▸ links, here.symm ▸ other, rfl⟩)
  · obtain ⟨-, l, inside, key⟩ := typed rel new
    have readable := storable.linksRead l inside
    rw [key, linked.link, World.textOf]
    rwa [← (linked.followed.keptURI (s.heap.link l).uri).1] at readable

/-- The network can be loaded from where it is found. -/
theorem exists_run_load (apart : linkType ≠ nodesLinkName) {p : ℕ} {text type : String}
    (present : m.kb.HasNode p) (reads : type ∈ unlinkedTypes)
    (found : m.kb.loadChild platform (some p) text type =
      some ⟨(s.linkedPlan stack n key linkType).nodeOf (.network n), s.heap.exported (.network n)⟩)
    {w₀ : World} (fresh : FreshProcess t w₀) :
    ∃ n' w, (ConceptNetwork.load platform stack (some p) text type).run w₀ = .ok n' w := by
  have unlinked := s.unlinked_withoutLinks n
  have concepts := storable.concepts
  have alike := linked.readsAs
  have here := linked.stored.hasNode (concepts.mem_resources savable unlinked .refl)
  have nodes : ∀ id, (s.withoutLinks n).ConceptNode stack n key linkType id ∨
      (s.withoutLinks n).PhraseNode stack n key linkType id → m.kb.HasNode id := by
    intro id holds
    obtain ⟨r, member, rfl⟩ := List.mem_map.mp (concepts.mem_nodes savable unlinked holds)
    exact linked.stored.hasNode member
  have loadable := (concepts.loadable savable unlinked linked.stored).of_readsAs alike nodes
    (by decide)
  have sorted : w₀.Sorted ((s.withoutLinks n).ConceptNode stack n key linkType)
      ((s.withoutLinks n).PhraseNode stack n key linkType) :=
    ⟨fun id _ r taken => absurd taken (by simp [fresh.empty]),
      fun id _ r taken => absurd taken (by simp [fresh.empty])⟩
  have found' := (alike.loadChild platform present reads text).trans found
  rw [← fresh.kb] at found'
  have exported := congrFun (Heap.exported_withoutLinks (n := n) s.heap) (.network n)
  have accepted := concepts.accepted _ .refl
  change platform.acceptsURI (KnowledgeURI.ofMap platform ⟨_, (s.heap.withoutLinks n).exported
    (.network n)⟩).format at accepted
  rw [exported] at accepted
  rw [run_loadNetwork stack found']
  refine loadable.exists_run_loadAt (fun id => concepts.mem_nodes savable unlinked) fresh.kb
    sorted (NetworkStorable.unloaded_lt savable w₀) accepted (fresh.empty _)
    (concepts.not_conceptNode_or_phraseNode savable unlinked) ?_ ?_
    (linked.linksRead storable savable)
  · exact (concepts.keysReadAt savable unlinked linked.stored .refl (by simp)
      (by decide)).of_readsAs alike here (by decide)
  · exact (concepts.leadsTo_concepts savable unlinked linked.stored .refl (fun _ => apart)
      (by simp)).of_readsAs alike here (by decide)

end LinkedNetworkStored

end ThinkingUnderstanding
