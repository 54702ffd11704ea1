import ThinkingUnderstanding.Persistence.SolutionStore
import ThinkingUnderstanding.Persistence.SolvedIssueRestored

/-!
# The store of solutions grows

A solution that has been returned is returned again after others have been added, with the same
network and the same HowTos, and each call returns one solution more, the one that is added. This
takes that solutions are stored, since the default ones are lost with the first that is added; that
the texts of the URIs of the solved issues are different; and that what is added can be stored
and found again.

## Main definitions

* `GrownByOne` — what one call returns, compared with what was returned before
* `SolutionAddable` — when a call returns one solution more
* `SolutionsGrow`, `AllAddable` — for all calls of a sequence

## Main results

* `SolutionAddable.exists_run_solutionsAdd` — the step
* `solutionsGrow_of_allAddable` — for sequences of calls
-/

namespace ThinkingUnderstanding

open Math Semantics Reporting

/-! ### What is returned again -/

/-- The objects that are there are as they were, but for the uids and the kept texts of URIs. -/
structure Heap.Keeps (heap heap' : Heap) : Prop where
  networks : heap.networks.Extends heap'.networks
  concepts : heap.concepts.Extends heap'.concepts
  conceptLines : heap.conceptLines.Extends heap'.conceptLines
  phraseLines : heap.phraseLines.Extends heap'.phraseLines
  phrases : heap.phrases.Extends heap'.phrases
  links : heap.links.Extends heap'.links
  uris : ∀ u, (heap.uri u).name ≠ "" →
    heap'.uri u = { heap.uri u with uid := (heap'.uri u).uid, cached := (heap'.uri u).cached }

/-- A HowTo is returned in the second state as in the first. -/
structure LoadedHowTo.ReturnedAgain (w w' : World) (h h' : LoadedHowTo) : Prop where
  parameters : h'.parameters = h.parameters
  uri : w'.heap.uri h'.uri = w.heap.uri h.uri
  probability : h'.probability = h.probability

/-- A solved issue is returned in the second state as in the first. -/
structure LoadedIssue.ReturnedAgain (w w' : World) (a b : LoadedIssue) : Prop where
  issue : b.issue = a.issue
  howTos : List.Forall₂ (LoadedHowTo.ReturnedAgain w w') a.solution.resources b.solution.resources
  uri : w'.heap.uri b.uri = w.heap.uri a.uri

/-- The solved issue is returned that has been added in the state `w`. -/
structure LoadedIssue.Returns (store : IssueStore) (w w' : World) (item : ℕ) (b : LoadedIssue) :
    Prop where
  issue : b.issue = (store.solvedIssue item).issue
  solution : SolutionRestored store w w' (SolvedIssue.solution store item) b.solution
  name : (w'.heap.uri b.uri).name = (w.heap.uri (store.solvedIssue item).uri).name

/-- A call that adds a solved issue in the state `w`, before which `res` was returned, returns
`res'`: what was returned before, and the solved issue that is added. -/
structure GrownByOne (store : IssueStore) (item : ℕ) (w : World) (res : List LoadedIssue)
    (w' : World) (res' : List LoadedIssue) : Prop where
  objects : w.heap.Keeps w'.heap
  returned : ∃ added kept, res'.Perm (added :: kept) ∧ added.Returns store w w' item ∧
    List.Forall₂ (LoadedIssue.ReturnedAgain w w') res kept

section Calls

variable (platform : Platform) (className : ℕ → Option String) (stack : ℕ)
  (defaults : SolutionDefaults) (store : IssueStore)

/-- Every call of the sequence returns what was returned before it, and one solution more. -/
def SolutionsGrow : List ℕ → List LoadedIssue → World → Prop
  | [], _, _ => True
  | item :: items, res, w => ∃ res' w',
      (KBAdapter.solutionsAdd platform className stack defaults store item).run w = .ok res' w' ∧
        GrownByOne store item w res w' res' ∧ SolutionsGrow items res' w'

/-- The HowTos of a solved issue can be stored and found again, when its network leaves `s₁`. -/
structure HowTosStorable (item : ℕ) (s s₁ : World) : Prop where
  plain : ∀ x ∈ (SolvedIssue.solution store item).resources, (store.howTo x).parameters = []
  own : ∀ x ∈ (SolvedIssue.solution store item).resources.dropLast,
    (store.howTo x).uri ≠ (SolvedIssue.solution store item).uri
  accepted : ∀ x ∈ (SolvedIssue.solution store item).resources,
    ((SolvedIssue.solutionBegun store item s s₁).heap.uri (store.howTo x).uri).Accepted platform
  apart : ((SolvedIssue.solution store item).resources.map fun x =>
    (SolvedIssue.solutionBegun store item s s₁).textOf (store.howTo x).uri).Nodup

/-- When a solved issue is added to the stored ones. Once the text of its URI has been asked for
in the state `w`, there is the state `s`. -/
structure SolutionAddable (item : ℕ) (w s : World) : Prop where
  stored : w.kb.storedSolutions ≠ []
  asked : (uriText platform (store.solvedIssue item).uri).run w =
    .ok (w.textOf (store.solvedIssue item).uri) s
  apart : ((w.kb.relationshipsOf KB.rootId solutionsName).map Relationship.key ++
    [w.textOf (store.solvedIssue item).uri]).Nodup
  unread : w.kb.Lacks conceptsLinkName
  own : ∀ r, DepthFirst.Reaches w.heap.children Child.resource
    (.network (store.solvedIssue item).issue) r → w.heap.uriRef r ≠ (store.solvedIssue item).uri
  readable : platform.acceptsURI
    { w.heap.uri (w.heap.network (store.solvedIssue item).issue).uri with
      uid := toString (w.kb.upcoming 1) }.format
  saves : ∃ s₁, SolvedIssue.SavesNetwork platform store stack item (some KB.rootId)
      (w.textOf (store.solvedIssue item).uri) solutionsName s s₁ ∧
    HowTosStorable platform store item s s₁

/-- Every solved issue of the sequence is added to the stored ones. -/
def AllAddable : List ℕ → World → Prop
  | [], _ => True
  | item :: items, w => (∃ s, SolutionAddable platform stack store item w s) ∧
      ∀ res' w', (KBAdapter.solutionsAdd platform className stack defaults store item).run w =
        .ok res' w' → AllAddable items w'

end Calls

/-! ### Objects that are kept -/

namespace Heap.Keeps

variable {heap : Heap}

/-- What changes uids and texts, and a load after it. -/
theorem of_extended {w w' : World} (same : heap.SameGraph w.heap) (extended : w.Extended w') :
    heap.Keeps w'.heap := by
  obtain ⟨kb, uris, concepts, conceptLines, phraseLines, phrases, links, networks, -, -⟩ := extended
  rw [same.objects] at concepts conceptLines phraseLines phrases links networks
  refine ⟨networks, concepts, conceptLines, phraseLines, phrases, links, fun u named => ?_⟩
  have fields := same.fields u
  -- an object that has a name is there
  have inside : u < w.heap.uris.size := by
    by_contra beyond
    have missing := w.heap.uris.get_of_size_le u (not_lt.mp beyond)
    have name : (w.heap.uri u).name = (heap.uri u).name := by rw [fields]
    rw [← name, Heap.uri, missing] at named
    exact named rfl
  have kept : w'.heap.uri u = w.heap.uri u := uris.get u inside
  rw [kept]
  exact fields

end Heap.Keeps

/-! ### What is made of the same nodes -/

theorem World.HasNetwork.unique {platform : Platform} {w : World} {map : Node} {n n' : NetworkRef}
    (known : w.HasNetwork platform map n) (known' : w.HasNetwork platform map n') : n = n' := by
  obtain ⟨m, found, -, cached⟩ := known
  obtain ⟨m', found', -, cached'⟩ := known'
  obtain rfl := Option.some.inj (found.symm.trans found')
  exact ResourceRef.network.inj (Option.some.inj (cached.symm.trans cached'))

/-- HowTos that have been made of the same nodes are returned again. -/
theorem LoadedHowTo.MadeOf.returnedAgain {platform : Platform} {w w' : World} {map : Node}
    {h h' : LoadedHowTo} (made : h.MadeOf platform w map) (made' : h'.MadeOf platform w' map) :
    h.ReturnedAgain w w' h' where
  parameters := made'.parameters.trans made.parameters.symm
  uri := made'.uri.trans made.uri.symm
  probability := made'.probability.trans made.probability.symm

/-! ### One call -/

namespace SolutionAddable

variable {platform : Platform} {stack item : ℕ} {store : IssueStore} {w s : World}
  (addable : SolutionAddable platform stack store item w s)

include addable

theorem asked_of_run : World.Asked (store.solvedIssue item).uri w s := by
  have accepted : (w.heap.uri (store.solvedIssue item).uri).Accepted platform := by
    by_contra refused
    obtain ⟨e, run⟩ := run_uriText_of_not_accepted refused
    exact nomatch run.symm.trans addable.asked
  obtain ⟨s', run, asked⟩ := run_uriText_of_accepted accepted
  obtain ⟨-, rfl⟩ := EStateM.Result.ok.inj (run.symm.trans addable.asked)
  exact asked

theorem savable : SolvedIssue.Savable store item s KB.rootId
    (w.textOf (store.solvedIssue item).uri) solutionsName where
  free rel member same := by
    have asked := addable.asked_of_run
    rw [asked.kb] at member
    have new := (List.nodup_append.mp addable.apart).2.2 rel.key (List.mem_map_of_mem member)
      _ List.mem_cons_self
    exact new same
  type := by decide
  unread := by
    rw [addable.asked_of_run.kb]
    exact addable.unread
  own r reaches := by
    have same := addable.asked_of_run.graph
    rw [same.children_eq] at reaches
    rw [same.uriRef_eq]
    exact addable.own r reaches

/-- The solved issue is stored. -/
theorem exists_run_saveAnew : ∃ s₁ t,
    (SolvedIssue.saveWithoutRecord platform stack store item (some KB.rootId)
      (w.textOf (store.solvedIssue item).uri) solutionsName).run s = .ok () t ∧
    SolvedIssue.StoredPlain platform store stack item KB.rootId
      (w.textOf (store.solvedIssue item).uri) solutionsName s s₁ t ∧
    HowTosStorable platform store item s s₁ ∧ t.kb.Lacks conceptsLinkName ∧
    s.heap.SameGraph t.heap := by
  obtain ⟨s₁, saves, howTos⟩ := addable.saves
  have savable : SolvedIssue.Savable store item s s.kb.root _ _ := addable.savable
  have atRoot : SolvedIssue.SavesNetwork platform store stack item (some s.kb.root) _ _ s s₁ :=
    saves
  obtain ⟨r₁, same, rest⟩ := saves.run_save savable.own
  obtain ⟨t, run, stored⟩ := SolvedIssue.exists_storedPlain same howTos.plain atRoot
    howTos.accepted (Reporting.save platform (.n4jkb store) store stack)
  have lacks := SolvedIssue.lacks_of_run savable (rest.trans run)
  refine ⟨s₁, t.toWorld, ?_, stored, howTos, lacks, ?_⟩
  · change SolvedIssue.saveWithoutRecord _ _ _ _ _ _ _ s = _
    rw [SolvedIssue.saveWithoutRecord, rest.trans run]
  · have begins : s₁.heap.SameGraph (SolvedIssue.solutionBegun store item s s₁).heap :=
      Heap.sameGraph_modifyURI _ _ fun _ => rfl
    exact (saves.spares savable.own).graph.trans (begins.trans stored.gains.graph)

end SolutionAddable

/-! ### What is returned after a call -/

/-- What is restored does not depend on uids and texts. -/
theorem SolutionRestored.of_sameGraph {store : IssueStore} {w t w' : World}
    (same : w.heap.SameGraph t.heap) {solution : Solution} {solution' : LoadedSolution}
    (restored : SolutionRestored store t w' solution solution') :
    SolutionRestored store w w' solution solution' := by
  have names : ∀ u, (t.heap.uri u).name = (w.heap.uri u).name := fun u => by rw [same.fields u]
  have concepts : ∀ c, t.heap.concept c = w.heap.concept c := fun c => by
    rw [same.objects]
    rfl
  refine Multiset.Rel.mono restored fun x _ h _ howTo => ⟨howTo.name.trans (names _), ?_⟩
  refine Multiset.Rel.mono howTo.parameters fun y _ frame _ restored => ?_
  refine Multiset.Rel.mono restored fun r _ c' _ resource => ?_
  obtain ⟨c, rfl, name, content⟩ := resource
  refine ⟨c, rfl, ?_, content.trans (congrArg Concept.content (concepts c))⟩
  rw [name, Heap.uriOf, concepts c]
  exact names _

namespace SolutionAddable

variable {platform : Platform} {store : IssueStore} {stack item : ℕ} {w s s₁ t w' : World}
  (addable : SolutionAddable platform stack store item w s)
  (stored : SolvedIssue.StoredPlain platform store stack item KB.rootId
    (w.textOf (store.solvedIssue item).uri) solutionsName s s₁ t)

include addable stored

/-- The table still has the networks of the nodes that were there. -/
theorem hasNetwork_old {map : Node} (present : w.kb.HasNode map.id) {n : NetworkRef}
    (known : w.HasNetwork platform map n) : t.HasNetwork platform map n := by
  have asked := addable.asked_of_run
  obtain ⟨m, found, accepted, cached⟩ := known
  refine stored.hasNetwork_old (by rwa [asked.kb]) ⟨m, ?_, accepted, ?_⟩
  · rwa [asked.kb]
  · rwa [asked.id2object]

/-- The table has the network that has been added. -/
theorem hasNetwork_new :
    t.HasNetwork platform (t.kb.node (s.kb.upcoming 0)) (store.solvedIssue item).issue := by
  have asked := addable.asked_of_run
  have network : s.heap.network (store.solvedIssue item).issue =
      w.heap.network (store.solvedIssue item).issue := by
    rw [asked.graph.objects]
    rfl
  refine stored.hasNetwork_new ?_
  rw [network, asked.graph.fields (w.heap.network (store.solvedIssue item).issue).uri, asked.kb]
  exact addable.readable

/-- One node is read more than before. -/
theorem perm_children : (t.kb.loadChildrenList platform (some KB.rootId) solutionsName).Perm
    (t.kb.node (s.kb.upcoming 0) ::
      w.kb.loadChildrenList platform (some KB.rootId) solutionsName) := by
  have kb := addable.asked_of_run.kb
  have apart : (s.kb.storedSolutions.map Relationship.key ++
      [w.textOf (store.solvedIssue item).uri]).Nodup := by
    rw [kb]
    refine addable.apart.sublist (List.Sublist.append ?_ (List.Sublist.refl _))
    exact List.filter_sublist.map _
  have perm := stored.perm_children apart
  rwa [kb] at perm ⊢

section Later

variable (extended : t.Extended w')
include extended

/-- What has been made of a node that was there is returned again. -/
theorem returnedAgain {map : Node} (present : w.kb.HasNode map.id) {a b : LoadedIssue}
    (made : a.MadeOf platform w map) (made' : b.MadeOf platform w' map) :
    a.ReturnedAgain w w' b := by
  have asked := addable.asked_of_run
  constructor
  case issue =>
    exact made'.issue.unique ((addable.hasNetwork_old stored present made.issue).extended extended)
  case howTos =>
    have later := made'.howTos
    rw [extended.kb, stored.howToMaps_old (by rwa [asked.kb]), asked.kb] at later
    exact forall₂_of_common (R := fun map h => LoadedHowTo.MadeOf platform w map h)
      (fun _ _ _ first second => first.returnedAgain second) made.howTos later
  case uri => exact made'.uri.trans made.uri.symm

/-- The solved issue that has been added is returned. -/
theorem returns (howTos : HowTosStorable platform store item s s₁)
    (same : s.heap.SameGraph t.heap) {b : LoadedIssue}
    (made : b.MadeOf platform w' (t.kb.node (s.kb.upcoming 0))) :
    b.Returns store w w' item := by
  have asked := addable.asked_of_run
  constructor
  case issue => exact made.issue.unique ((addable.hasNetwork_new stored).extended extended)
  case solution =>
    refine SolutionRestored.of_sameGraph (asked.graph.trans same) ?_
    refine stored.atRoot.solutionRestored howTos.plain howTos.own howTos.apart ?_
    have read := stored.atRoot.loadChild_solution addable.savable
    have later := made.howTos
    rw [extended.kb, KB.howToMaps, KB.id_node, read, Option.map_some, KB.id_node] at later
    exact later
  case name =>
    rw [made.uri, stored.node_of_network stored.network.hasNode_issue, stored.network.node_issue]
    change (s.heap.uri (store.solvedIssue item).uri).name = _
    rw [asked.graph.fields (store.solvedIssue item).uri]

end Later

end SolutionAddable

/-- One call returns what was returned before, and the solved issue that is added. -/
theorem SolutionAddable.exists_run_solutionsAdd {platform : Platform} {store : IssueStore}
    {stack item : ℕ} {w s : World} (addable : SolutionAddable platform stack store item w s)
    (className : ℕ → Option String) (defaults : SolutionDefaults) {res : List LoadedIssue}
    (made : List.Forall₂ (fun map a => LoadedIssue.MadeOf platform w map a)
      (w.kb.loadChildrenList platform (some KB.rootId) solutionsName) res) :
    ∃ res' w', (KBAdapter.solutionsAdd platform className stack defaults store item).run w =
        .ok res' w' ∧ GrownByOne store item w res w' res' ∧
      List.Forall₂ (fun map a => LoadedIssue.MadeOf platform w' map a)
        (w'.kb.loadChildrenList platform (some KB.rootId) solutionsName) res' := by
  obtain ⟨s₁, t, saved, stored, howTos, lacks, same⟩ := addable.exists_run_saveAnew
  have perm := addable.perm_children stored
  have apart : (w.kb.storedSolutions.map Relationship.key).Nodup :=
    (List.Nodup.of_append_left addable.apart).sublist (List.filter_sublist.map _)
  have present : ∀ map ∈ w.kb.loadChildrenList platform (some KB.rootId) solutionsName,
      w.kb.HasNode map.id := by
    intro map member
    obtain ⟨rel, listed, rfl⟩ := List.mem_map.mp
      ((KB.perm_loadChildrenList_solutions platform apart).mem_iff.mp member)
    rw [KB.id_node]
    exact (w.kb.joined rel (KB.mem_relationshipsOf.mp (List.mem_of_mem_filter listed)).1).2
  -- the table has all their networks, so that the list is made
  have known : ∀ map ∈ t.kb.loadChildrenList platform (some KB.rootId) solutionsName,
      ∃ n, t.HasNetwork platform map n := by
    intro map member
    rcases List.mem_cons.mp (perm.mem_iff.mp member) with rfl | old
    · exact ⟨_, addable.hasNetwork_new stored⟩
    · obtain ⟨a, -, before⟩ := exists_of_mem_left made old
      exact ⟨a.issue, addable.hasNetwork_old stored (present map old) before.issue⟩
  obtain ⟨res', w', listed⟩ := KBAdapter.exists_run_solutions lacks className stack defaults known
  have some_ : t.kb.loadChildrenList platform (some KB.rootId) solutionsName ≠ [] := by
    intro none
    rw [none] at perm
    exact List.cons_ne_nil _ _ perm.symm.eq_nil
  obtain ⟨extended, made'⟩ := KBAdapter.madeOf_of_run_solutions lacks some_ listed
  refine ⟨res', w', ?_, ⟨.of_extended (addable.asked_of_run.graph.trans same) extended, ?_⟩, ?_⟩
  · refine run_bind_eq_ok_iff.mpr ⟨_, s, addable.asked, ?_⟩
    exact run_bind_eq_ok_iff.mpr ⟨(), t, saved, listed⟩
  · obtain ⟨arranged, each, same'⟩ := List.perm_comp_forall₂ perm.symm made'
    cases each with
    | cons first rest =>
      refine ⟨_, _, same'.symm, addable.returns stored extended howTos same first, ?_⟩
      refine forall₂_of_common ?_ ((List.forall₂_and_left _ _).mpr ⟨present, made⟩) rest
      exact fun map a b before after =>
        addable.returnedAgain stored extended before.1 before.2 after
  · rw [extended.kb]
    exact made'

/-! ### All calls -/

section Runs

variable {platform : Platform} {className : ℕ → Option String} {stack : ℕ}
  {defaults : SolutionDefaults} {store : IssueStore}

/-- The solutions that are returned have been made of the stored ones; each call keeps this. -/
theorem solutionsGrow_of_madeOf {items : List ℕ} {res : List LoadedIssue} {w : World}
    (made : List.Forall₂ (fun map a => LoadedIssue.MadeOf platform w map a)
      (w.kb.loadChildrenList platform (some KB.rootId) solutionsName) res)
    (addable : AllAddable platform className stack defaults store items w) :
    SolutionsGrow platform className stack defaults store items res w := by
  induction items generalizing res w with
  | nil => exact trivial
  | cons item items ih =>
    obtain ⟨⟨s, first⟩, rest⟩ := addable
    obtain ⟨res', w', run, grown, made'⟩ := first.exists_run_solutionsAdd className defaults made
    exact ⟨res', w', run, grown, ih made' (rest res' w' run)⟩

end Runs

/-- Default solutions that are never returned. -/
def noDefaults : SolutionDefaults where
  installFirefoxHowTo := { parameters := [], uri := 0, probability := {} }
  reinstallIEHowTo := { parameters := [], uri := 0, probability := {} }
  pleaseInstallFFSimulation := 0
  iHaveProblemWithIE8Simulation := 0
  iHaveProblemWithIE8Reformulation := 0

/-- The solved issue has been stored under another text than that of its URI. -/
def oneSolution : World :=
  finalState ((SolvedIssue.saveWithoutRecord .plain 3 (firefoxIssue []) 0 (some KB.rootId) "first"
    solutionsName).run installFirefox)

/-- The solutions have been asked for. -/
def oneReturned : World :=
  finalState ((KBAdapter.solutions .plain (fun _ => none) 3 noDefaults).run oneSolution)

theorem closed_oneReturned :
    DepthFirst.Closed oneReturned.heap.children Child.resource firefoxObjects := by
  unfold DepthFirst.Closed
  decide +kernel

theorem oneReturned_addable :
    AllAddable .plain (fun _ => none) 3 noDefaults (firefoxIssue []) [0] oneReturned := by
  refine ⟨?_, fun _ _ _ => trivial⟩
  have accepted : (oneReturned.heap.uri 2).Accepted .plain := fun _ => rfl
  obtain ⟨s, asked, -⟩ := run_uriText_of_accepted accepted
  obtain rfl : finalState ((uriText .plain 2).run oneReturned) = s := congrArg finalState asked
  refine ⟨_, ⟨by decide +kernel, asked, by decide +kernel, ?_, ?_, rfl, ?_⟩⟩
  · unfold KB.Lacks
    decide +kernel
  · intro r reaches
    have all : ∀ r ∈ firefoxObjects, oneReturned.heap.uriRef r ≠ 2 := by decide +kernel
    exact all r (closed_oneReturned.mem_of_reaches List.mem_cons_self reaches)
  · refine ⟨_, eq_ok_of_returned ?_, fun _ _ => rfl, ?_, fun _ _ _ => rfl, ?_⟩
    all_goals decide +kernel

end ThinkingUnderstanding
