import ThinkingUnderstanding.Persistence.ConceptNetworkRestored
import ThinkingUnderstanding.Persistence.LinkedNetworks

/-!
# Are solved issues restored?

A solved issue is restored when saving it succeeds, and the solved issue that a fresh process
loads has the same HowTos, each with its name and its parameters. Parameters are never loaded, and
HowTos are told apart by the texts of their URIs. So a solved issue whose HowTos have parameters is
not restored. Where the network of the issue can be stored and read, a solved issue is
restored exactly when its HowTos have no parameters and have texts of their own, and no HowTo but
the last has the URI object of the solution.

## Main definitions

* `SolutionRestored` — the solution that is loaded is the one that was saved
* `SolvedIssueRoundTrips` — saving succeeds, and loading restores
* `IssueNetworkStorable` — the network of the issue can be stored and read
* `SolutionRestorable` — the condition on the solution

## Main results

* `SolvedIssueRoundTrips.plain` — a solved issue that is restored has no parameters
* `solvedIssueRoundTrips_iff` — when a solved issue is restored
-/

namespace ThinkingUnderstanding

open Math Semantics Reporting

section Restored

variable (store : IssueStore) (t w : World)

/-- A concept that was loaded in the state `w` is the resource that was saved in the state `t`. -/
def FrameResourceRestored (y : SavedResource) (c' : ConceptRef) : Prop :=
  ∃ c, y = .graph (.concept c) ∧ (w.heap.uriOf c').name = (t.heap.uriOf c).name ∧
    (w.heap.concept c').content = (t.heap.concept c).content

/-- A frame that was loaded holds the concepts that the saved one holds. -/
def FrameRestored (x : ℕ) (frame : LoadedFrame) : Prop :=
  Multiset.Rel (FrameResourceRestored t w) (store.frame x).resources.values frame.resources.values

/-- A HowTo that was loaded is the one that was saved. -/
structure HowToRestored (x : ℕ) (howTo : LoadedHowTo) : Prop where
  name : (w.heap.uri howTo.uri).name = (t.heap.uri (store.howTo x).uri).name
  parameters : Multiset.Rel (FrameRestored store t w) (store.howTo x).parameters howTo.parameters

/-- A solution that was loaded has the HowTos of the one that was saved. -/
def SolutionRestored (solution : Solution) (solution' : LoadedSolution) : Prop :=
  Multiset.Rel (HowToRestored store t w) solution.resources solution'.resources

end Restored

section Condition

variable (platform : Platform) (store : IssueStore) (stack : ℕ) (s : World) (i : ℕ)
  (parent : Option ℕ) (key linkType : String)

/-- The solved issue is saved, and what a fresh process then loads has its solution. The stack is as
deep as given below `SolvedIssue.save` and `SolvedIssue.load`. -/
def SolvedIssueRoundTrips (className : ℕ → Option String) : Prop :=
  ∃ res t, recordedSave platform (.n4jkb store) store (stack + 1) s (.solvedIssue i) parent key
      linkType = .ok res t ∧
    ∀ w₀, FreshProcess t.toWorld w₀ → ∃ issue w,
      (SolvedIssue.load platform className stack parent key linkType).run w₀ = .ok issue w ∧
        SolutionRestored store t.toWorld w (SolvedIssue.solution store i) issue.solution

/-- The plan of the save of the network of a solved issue, but for its links. -/
def SolvedIssue.issuePlan : SavePlan :=
  (begun store i parent key linkType s).linkedPlan stack (store.solvedIssue i).issue ""
    conceptsNetworkName

/-- The number of nodes that are stored for the network of a solved issue. -/
def SolvedIssue.networkNodes : ℕ :=
  (issuePlan store stack s i parent key linkType).arrivals.length +
    (s.heap.network (store.solvedIssue i).issue).links.length

/-- A URI object when the HowTos are saved, as far as texts tell: that of the solution has the
number of its node, and the others are as after the network. -/
def SolvedIssue.howToURI (u : UriRef) : KnowledgeURI :=
  if u = (solution store i).uri then
    { (begun store i parent key linkType s).heap.uri u with
      uid := toString ((begun store i parent key linkType s).kb.upcoming
        (networkNodes store stack s i parent key linkType)) }
  else (issuePlan store stack s i parent key linkType).keptURI u

/-- The network of a solved issue is made of finitely many objects, none of which has the URI object
of the solution, and can be stored and read. -/
structure IssueNetworkStorable (objects : List ResourceRef) : Prop where
  savable : NetworkSavable stack
    ((SolvedIssue.begun store i parent key linkType s).withoutLinks (store.solvedIssue i).issue)
    (store.solvedIssue i).issue objects
  storable : LinkedNetworkStorable platform stack (SolvedIssue.begun store i parent key linkType s)
    (store.solvedIssue i).issue "" conceptsNetworkName
  own : ∀ r, DepthFirst.Reaches s.heap.children Child.resource
    (.network (store.solvedIssue i).issue) r → s.heap.uriRef r ≠ (SolvedIssue.solution store i).uri

/-- When the solution of a solved issue is restored. -/
structure SolutionRestorable : Prop where
  /-- No HowTo has parameters. -/
  plain : ∀ x ∈ (SolvedIssue.solution store i).resources, (store.howTo x).parameters = []
  /-- No HowTo but the last has the URI object of the solution. -/
  own : ∀ x ∈ (SolvedIssue.solution store i).resources.dropLast,
    (store.howTo x).uri ≠ (SolvedIssue.solution store i).uri
  /-- The texts of the URIs of the HowTos are accepted, or have been made before. -/
  accepted : ∀ x ∈ (SolvedIssue.solution store i).resources, (SolvedIssue.howToURI store stack s i
    parent key linkType (store.howTo x).uri).Accepted platform
  /-- They are different from each other. -/
  apart : ((SolvedIssue.solution store i).resources.map fun x =>
    (SolvedIssue.howToURI store stack s i parent key linkType (store.howTo x).uri).text).Nodup

/-- The network of a solved issue has been saved below its node, and is loaded from there. -/
structure IssueNetworkKept (s₁ : World) : Prop where
  saves : SolvedIssue.SavesNetwork platform store stack i parent key linkType s s₁
  loads : ∀ w₀, FreshProcess s₁ w₀ → ∃ n w, (ConceptNetwork.load platform stack
    (some (s.kb.upcoming 0)) "" conceptsNetworkName).run w₀ = .ok n w

/-- The condition, as seen in the state `s₁` that the save of the network has left. -/
structure SolvedIssueRestorable (s₁ : World) : Prop where
  network : IssueNetworkKept platform store stack s i parent key linkType s₁
  plain : ∀ x ∈ (SolvedIssue.solution store i).resources, (store.howTo x).parameters = []
  own : ∀ x ∈ (SolvedIssue.solution store i).resources.dropLast,
    (store.howTo x).uri ≠ (SolvedIssue.solution store i).uri
  accepted : ∀ x ∈ (SolvedIssue.solution store i).resources,
    ((SolvedIssue.solutionBegun store i s s₁).heap.uri (store.howTo x).uri).Accepted platform
  apart : ((SolvedIssue.solution store i).resources.map fun x =>
    (SolvedIssue.solutionBegun store i s s₁).textOf (store.howTo x).uri).Nodup

end Condition

variable {platform : Platform} {store : IssueStore} {stack : ℕ} {s s₁ : World} {i : ℕ}
  {parent : {id // s.kb.HasNode id}} {key linkType : String} {className : ℕ → Option String}

namespace SolvedIssue

/-! ### What is saved -/

/-- Nothing is ever saved with the type of frames. -/
theorem lacks_of_run (savable : Savable store i s parent key linkType) {res : Bool}
    {t : RecordedWorld}
    (run : recordedSave platform (.n4jkb store) store (stack + 1) s (.solvedIssue i) (some parent)
      key linkType = .ok res t) : t.kb.Lacks conceptsLinkName := by
  have other : conceptsLinkName ∉ linkType :: issueTypes := by
    rintro member
    rcases List.mem_cons.mp member with same | among
    · exact savable.type (same ▸ List.mem_cons_self)
    · exact absurd among (by decide)
  have kept := (Reporting.maintains_save
    (KB.kept_relationshipsOf other s.kb) (stack + 1) [] (.solvedIssue i) (some parent) key linkType
    (List.subset_cons_self _ _) List.mem_cons_self).keeps_of_run run fun _ => rfl
  intro rel present type
  have listed := KB.mem_relationshipsOf.mpr ⟨present, Or.inl rfl, type⟩
  rw [kept, KB.relationshipsOf_of_lacks savable.unread] at listed
  exact List.not_mem_nil listed

section Solution

variable {r₁ : RecordedWorld} (same : r₁.toWorld = { s₁ with saved := s.saved })

include same

/-- The node of the solution is stored, and then the HowTos are. -/
theorem run_saveSolution (platform : Platform) (save : Reporting.Saver) :
    ∃ m : RecordedWorld, m.toWorld = { solutionBegun store i s s₁ with saved := s.saved } ∧
      m.uidOf (solution store i).uri = toString (s₁.kb.upcoming 0) ∧
      m.kb.HasNode (s₁.kb.upcoming 0) ∧
      (Solution.save platform (.n4jkb store) store save [.solution] (store.solvedIssue i).solution
          (some (s.kb.upcoming 0)) "" solutionName).run r₁ =
        ((solution store i).resources.foldlM (Solution.saveHowTo platform store save [.solution]
          (solution store i).uri) true).run m := by
  obtain ⟨m, stored, whole⟩ := run_saveSolution_resource store [.solution]
    (store.solvedIssue i).solution (some (s.kb.upcoming 0)) "" solutionName r₁
  rw [same] at whole
  refine ⟨m, whole, ?_, ?_, ?_⟩
  · rw [whole]
    exact (World.uidOf_addResource _ _ _ _ _ _ _).trans (if_pos rfl)
  · rw [whole]
    exact KB.hasNode_addChild .. |>.mpr (Or.inr rfl)
  · rw [Solution.save_eq, EStateM.run_bind, stored]
    rfl

variable (plain : ∀ x ∈ (solution store i).resources, (store.howTo x).parameters = [])
include plain

/-- HowTos without parameters, the texts of whose URIs are accepted, are stored. -/
theorem exists_storedPlain
    (saves : SavesNetwork platform store stack i (some parent) key linkType s s₁)
    (accepted : ∀ x ∈ (solution store i).resources,
      ((solutionBegun store i s s₁).heap.uri (store.howTo x).uri).Accepted platform)
    (save : Reporting.Saver) :
    ∃ t : RecordedWorld, (Solution.save platform (.n4jkb store) store save [.solution]
        (store.solvedIssue i).solution (some (s.kb.upcoming 0)) "" solutionName).run r₁ =
        .ok true t ∧
      StoredPlain platform store stack i parent key linkType s s₁ t.toWorld := by
  obtain ⟨m, whole, denotes, present, run⟩ := run_saveSolution same platform save
  obtain ⟨t, loop, gains⟩ := Solution.run_saveHowTos save [.solution] true denotes present
    (by rw [whole]; exact accepted) plain
  rw [whole] at gains
  exact ⟨t, run.trans loop, saves, gains.nodes, gains.relationships, gains.upcoming,
    gains.id2object, gains.graph, gains.texts, gains.accepted⟩

theorem accepted_of_run {save : Reporting.Saver} {res : Bool} {t : RecordedWorld}
    (run : (Solution.save platform (.n4jkb store) store save [.solution]
      (store.solvedIssue i).solution (some (s.kb.upcoming 0)) "" solutionName).run r₁ = .ok res t) :
    ∀ x ∈ (solution store i).resources,
      ((solutionBegun store i s s₁).heap.uri (store.howTo x).uri).Accepted platform := by
  obtain ⟨m, whole, denotes, present, run'⟩ := run_saveSolution same platform save
  have accepted := Solution.accepted_of_run_saveHowTos denotes present plain (run'.symm.trans run)
  rw [whole] at accepted
  exact accepted

end Solution

/-- A solved issue whose HowTos have no parameters has been saved as is known. -/
theorem storedPlain_of_run (savable : Savable store i s parent key linkType)
    (plain : ∀ x ∈ (solution store i).resources, (store.howTo x).parameters = []) {res : Bool}
    {t : RecordedWorld}
    (run : recordedSave platform (.n4jkb store) store (stack + 1) s (.solvedIssue i) (some parent)
      key linkType = .ok res t) :
    ∃ s₁, StoredPlain platform store stack i parent key linkType s s₁ t.toWorld ∧
      ∀ x ∈ (solution store i).resources,
        ((solutionBegun store i s s₁).heap.uri (store.howTo x).uri).Accepted platform := by
  obtain ⟨s₁, saves⟩ := exists_savesNetwork_of_run run
  obtain ⟨r₁, same, rest⟩ := saves.run_save savable.own
  rw [rest] at run
  have accepted := accepted_of_run same plain run
  obtain ⟨t', run', stored⟩ := exists_storedPlain same plain saves accepted _
  obtain ⟨-, rfl⟩ := EStateM.Result.ok.inj (run'.symm.trans run)
  exact ⟨s₁, stored, accepted⟩

/-! ### What is loaded -/

namespace StoredPlain

variable {t : World} (stored : StoredPlain platform store stack i parent key linkType s s₁ t)

include stored

/-- With what has been added after it, the network is loaded as without. -/
theorem run_loadNetwork {w₀ : World} (fresh : FreshProcess s₁ w₀) :
    (ConceptNetwork.load platform stack (some (s.kb.upcoming 0)) "" conceptsNetworkName).run
        (w₀.withKB t.kb) =
      forget (World.withKB t.kb) id ((ConceptNetwork.load platform stack
        (some (s.kb.upcoming 0)) "" conceptsNetworkName).run w₀) :=
  (exchanged_loadNetwork stored.readsAs (List.subset_cons_self _ _) stack _ _ _
    stored.network.hasNode List.mem_cons_self).run_change w₀ fresh.kb

theorem loadsNetwork_iff :
    (∀ w₀, FreshProcess s₁ w₀ → ∃ n w, (ConceptNetwork.load platform stack
        (some (s.kb.upcoming 0)) "" conceptsNetworkName).run w₀ = .ok n w) ↔
      ∀ w₀, FreshProcess t w₀ → ∃ n w, (ConceptNetwork.load platform stack
        (some (s.kb.upcoming 0)) "" conceptsNetworkName).run w₀ = .ok n w := by
  constructor
  · intro loads w₀ fresh
    have older : FreshProcess s₁ (w₀.withKB s₁.kb) := ⟨rfl, fresh.empty⟩
    obtain ⟨n, w, run⟩ := loads _ older
    have alike := stored.run_loadNetwork older
    rw [run] at alike
    have back : (w₀.withKB s₁.kb).withKB t.kb = w₀ := by
      rw [← fresh.kb]
      rfl
    rw [back] at alike
    exact ⟨n, _, alike⟩
  · intro loads w₀ fresh
    have newer : FreshProcess t (w₀.withKB t.kb) := ⟨rfl, fresh.empty⟩
    obtain ⟨n, w, run⟩ := loads _ newer
    rw [stored.run_loadNetwork fresh] at run
    cases loaded : (ConceptNetwork.load platform stack (some (s.kb.upcoming 0)) ""
        conceptsNetworkName).run w₀ with
    | ok n' w' => exact ⟨n', w', rfl⟩
    | error e w' =>
      rw [loaded] at run
      exact nomatch run

/-- The HowTos that are made of the children of the solution are those that were saved. -/
theorem solutionRestored
    (plain : ∀ x ∈ (solution store i).resources, (store.howTo x).parameters = [])
    (own : ∀ x ∈ (solution store i).resources.dropLast,
      (store.howTo x).uri ≠ (solution store i).uri)
    (apart : ((solution store i).resources.map fun x =>
      (solutionBegun store i s s₁).textOf (store.howTo x).uri).Nodup) {w : World}
    {solution' : LoadedSolution}
    (made : List.Forall₂ (fun map h => LoadedHowTo.MadeOf platform w map h)
      (t.kb.loadChildrenList platform (some (s₁.kb.upcoming 0)) defaultLinkName)
      solution'.resources) :
    SolutionRestored store t w (solution store i) solution' := by
  obtain ⟨entries, perm, same⟩ := stored.exists_loadChildrenList own apart
  rw [same, List.forall₂_map_left_iff] at made
  rw [SolutionRestored, ← Multiset.coe_eq_coe.mpr perm]
  refine multisetRel_of_forall₂ ?_
  rw [List.forall₂_map_left_iff]
  have known : ∀ entry ∈ entries, (store.howTo entry.1).parameters = [] := fun entry member =>
    plain entry.1 (perm.mem_iff.mp (List.mem_map_of_mem member))
  refine ((List.forall₂_and_left _ _).mpr ⟨known, made⟩).imp fun entry h both => ⟨?_, ?_⟩
  · rw [both.2.uri, stored.gains.graph.fields (store.howTo entry.1).uri]
    rfl
  · rw [both.1, both.2.parameters]
    exact .zero

end StoredPlain

end SolvedIssue

/-! ### The condition -/

section Iff

variable (savable : SolvedIssue.Savable store i s parent key linkType)
include savable

theorem SolvedIssueRestorable.roundTrips
    (restorable : SolvedIssueRestorable platform store stack s i (some parent) key linkType s₁) :
    SolvedIssueRoundTrips platform store stack s i (some parent) key linkType className := by
  obtain ⟨r₁, same, rest⟩ := restorable.network.saves.run_save savable.own
  obtain ⟨t, run, stored⟩ := SolvedIssue.exists_storedPlain same restorable.plain
    restorable.network.saves restorable.accepted
    (Reporting.save platform (.n4jkb store) store stack)
  refine ⟨true, t, rest.trans run, fun w₀ fresh => ?_⟩
  have lacks := SolvedIssue.lacks_of_run savable (rest.trans run)
  rw [← fresh.kb] at lacks
  -- the issue is found, and its network can be loaded
  have found := stored.loadChild_issue savable
  obtain ⟨n, w, loaded⟩ := stored.loadsNetwork_iff.mp restorable.network.loads w₀ fresh
  rw [← fresh.kb] at found
  rw [← KB.id_node w₀.kb (s.kb.upcoming 0)] at loaded
  obtain ⟨issue, w', load, made⟩ := SolvedIssue.run_load platform className lacks found loaded
  refine ⟨issue, w', load, ?_⟩
  rw [KB.id_node, fresh.kb, stored.loadChild_solution savable, Option.map_some, KB.id_node] at made
  exact stored.solutionRestored restorable.plain restorable.own restorable.apart made

variable
  (trips : SolvedIssueRoundTrips platform store stack s i (some parent) key linkType className)
include trips

/-- HowTos that are restored have no parameters. -/
theorem SolvedIssueRoundTrips.plain :
    ∀ x ∈ (SolvedIssue.solution store i).resources, (store.howTo x).parameters = [] := by
  obtain ⟨res, t, run, loads⟩ := trips
  obtain ⟨issue, w, load, restored⟩ := loads { t.toWorld with id2object := fun _ => none }
    ⟨rfl, fun _ => rfl⟩
  obtain ⟨selfMap, -, -, made⟩ := SolvedIssue.exists_of_run_load platform className
    (w := { t.toWorld with id2object := fun _ => none }) (SolvedIssue.lacks_of_run savable run) load
  intro x member
  obtain ⟨h, inside, same⟩ := Multiset.exists_mem_of_rel_of_mem restored member
  obtain ⟨map, -, from_⟩ := exists_of_mem_right made inside
  have parameters := same.parameters
  rw [from_.parameters] at parameters
  exact Multiset.coe_eq_zero _ |>.mp (Multiset.rel_zero_right.mp parameters)

theorem SolvedIssueRoundTrips.exists_restorable :
    ∃ s₁, SolvedIssueRestorable platform store stack s i (some parent) key linkType s₁ := by
  have plain := trips.plain savable
  obtain ⟨res, t, run, loads⟩ := trips
  obtain ⟨s₁, stored, accepted⟩ := SolvedIssue.storedPlain_of_run savable plain run
  have found := stored.loadChild_issue savable
  have lacks := SolvedIssue.lacks_of_run savable run
  -- as many HowTos are read as have been saved
  have length : (SolvedIssue.solution store i).resources.length ≤ (t.kb.loadChildrenList platform
      (some (s₁.kb.upcoming 0)) defaultLinkName).length := by
    obtain ⟨issue, w, load, restored⟩ := loads { t.toWorld with id2object := fun _ => none }
      ⟨rfl, fun _ => rfl⟩
    obtain ⟨selfMap, found', -, made⟩ := SolvedIssue.exists_of_run_load platform className
      (w := { t.toWorld with id2object := fun _ => none }) lacks load
    obtain rfl := Option.some.inj (found.symm.trans found')
    change List.Forall₂ _ (t.kb.loadChildrenList platform
      ((t.kb.loadChild platform (some (t.kb.node (s.kb.upcoming 0)).id) "" solutionName).map
        Node.id) defaultLinkName) _ at made
    rw [KB.id_node, stored.loadChild_solution savable, Option.map_some, KB.id_node] at made
    have same : (SolvedIssue.solution store i).resources.length = issue.solution.resources.length :=
      Multiset.card_eq_card_of_rel restored
    rw [same, made.length_eq]
  obtain ⟨own, apart⟩ := stored.own_and_apart length
  refine ⟨s₁, ⟨stored.network, stored.loadsNetwork_iff.mpr fun w₀ fresh => ?_⟩, plain, own,
    accepted, apart⟩
  obtain ⟨issue, w, load, -⟩ := loads w₀ fresh
  rw [← fresh.kb] at lacks
  obtain ⟨selfMap, found', ⟨n, w₁, loaded⟩, -⟩ :=
    SolvedIssue.exists_of_run_load platform className lacks load
  rw [fresh.kb] at found'
  obtain rfl := Option.some.inj (found.symm.trans found')
  rw [KB.id_node] at loaded
  exact ⟨n, w₁, loaded⟩

end Iff

/-! ### The condition on the input -/

namespace IssueNetworkStorable

variable {objects : List ResourceRef} (savable : SolvedIssue.Savable store i s parent key linkType)
  (network : IssueNetworkStorable platform store stack s i (some parent) key linkType objects)

include savable network

/-- Where the network has been stored, it is found, since nothing else is below the new node. -/
theorem loadChild_network {m : World}
    (stored : (SolvedIssue.issuePlan store stack s i (some parent) key linkType).Stored
      ((SolvedIssue.begun store i (some parent) key linkType s).kb.getNodeById
        (some (s.kb.upcoming 0)))
      (rootCall (.network (store.solvedIssue i).issue) "" conceptsNetworkName) m.kb) :
    m.kb.loadChild platform (some (s.kb.upcoming 0)) "" conceptsNetworkName =
      some ⟨(SolvedIssue.issuePlan store stack s i (some parent) key linkType).nodeOf
          (.network (store.solvedIssue i).issue),
        (SolvedIssue.begun store i (some parent) key linkType s).heap.exported
          (.network (store.solvedIssue i).issue)⟩ := by
  have present : (SolvedIssue.begun store i (some parent) key linkType s).kb.HasNode
      (s.kb.upcoming 0) := KB.hasNode_addChild .. |>.mpr (Or.inr rfl)
  have other : linkType ≠ conceptsNetworkName := fun same =>
    savable.not_mem [conceptsNetworkName] (by decide) (List.mem_singleton.mpr same)
  have none : (SolvedIssue.begun store i (some parent) key linkType s).kb.relationshipsOf
      (s.kb.upcoming 0) conceptsNetworkName = [] := by
    have relationships : (SolvedIssue.begun store i (some parent) key linkType s).kb.relationships =
      s.kb.relationships ++ [⟨s.kb.getNodeById (some parent.val), s.kb.upcoming 0, linkType, key⟩] :=
        KB.relationships_addChild ..
    rw [KB.relationshipsOf_append relationships,
      KB.relationshipsOf_of_absent (s.kb.not_hasNode_upcoming 0),
      List.filter_cons_of_neg (by simp [other])]
    rfl
  have old : ∀ rel ∈ (SolvedIssue.begun store i (some parent) key linkType s).kb.relationshipsOf
      ((SolvedIssue.begun store i (some parent) key linkType s).kb.getNodeById
        (some (s.kb.upcoming 0))) conceptsNetworkName, rel.key ≠ "" := by
    rw [KB.getNodeById_of_hasNode present, none]
    exact List.forall_mem_nil _
  have exported := Heap.exported_withoutLinks (n := (store.solvedIssue i).issue)
    (SolvedIssue.begun store i (some parent) key linkType s).heap
  rw [← exported]
  exact stored.loadChild_root (fun id same => (Option.some.inj same) ▸ present)
    (network.storable.concepts.mem_resources network.savable (World.unlinked_withoutLinks _ _)
      .refl) rfl old

omit savable in
/-- The texts with which the HowTos are saved, after the network. -/
theorem howToURI {m s₁ : World} (linked : LinkedNetworkStored platform stack
      (SolvedIssue.begun store i (some parent) key linkType s) (store.solvedIssue i).issue ""
        conceptsNetworkName (some (s.kb.upcoming 0)) m s₁) (u : UriRef) :
    (SolvedIssue.solutionBegun store i s s₁).textOf u =
        (SolvedIssue.howToURI store stack s i (some parent) key linkType u).text ∧
      (((SolvedIssue.solutionBegun store i s s₁).heap.uri u).Accepted platform ↔
        (SolvedIssue.howToURI store stack s i (some parent) key linkType u).Accepted platform) := by
  have uris : (SolvedIssue.solutionBegun store i s s₁).heap.uri u =
      if u = (SolvedIssue.solution store i).uri then
        { s₁.heap.uri (SolvedIssue.solution store i).uri with uid := toString (s₁.kb.upcoming 0) }
      else s₁.heap.uri u := Heap.uri_modifyURI _ _ _ _
  rw [World.textOf, uris, SolvedIssue.howToURI]
  split_ifs with here
  · -- no object that is saved with the network has this URI object
    have graph := SolvedIssue.sameGraph_begun store i (some parent) key linkType s
    have untouched := linked.untouched (u := (SolvedIssue.solution store i).uri) ?_ ?_
    · rw [untouched, linked.upcoming, here]
      exact ⟨rfl, Iff.rfl⟩
    · intro r member
      rw [graph.uriRef_eq]
      have reaches := (SavePlan.mem_resources_iff _ network.savable.closed network.savable.member
        network.savable.deep).mp member
      have reaches' := Heap.reaches_of_reaches_withoutLinks _ reaches
      rw [graph.children_eq] at reaches'
      exact network.own r reaches'
    · intro l inside
      have edge : Heap.child linksLinkName (.link l) ∈
          (SolvedIssue.begun store i (some parent) key linkType s).heap.children
            (.network (store.solvedIssue i).issue) := by
        rw [Heap.children_network_eq_append]
        exact List.mem_append_right _ (List.mem_map_of_mem inside)
      rw [graph.children_eq] at edge
      have own := network.own (.link l) (.single ⟨_, edge, rfl⟩)
      rwa [← graph.uriRef_eq] at own
  · exact linked.texts u

/-- The network is saved and loaded, and the texts of the HowTos are known. -/
theorem exists_kept : ∃ s₁, IssueNetworkKept platform store stack s i (some parent) key linkType s₁ ∧
    ∀ u, (SolvedIssue.solutionBegun store i s s₁).textOf u =
        (SolvedIssue.howToURI store stack s i (some parent) key linkType u).text ∧
      (((SolvedIssue.solutionBegun store i s s₁).heap.uri u).Accepted platform ↔
        (SolvedIssue.howToURI store stack s i (some parent) key linkType u).Accepted platform) := by
  obtain ⟨m, s₁, run, linked⟩ : ∃ m s₁, SolvedIssue.SavesNetwork platform store stack i
      (some parent.val) key linkType s s₁ ∧ _ := network.storable.exists_run network.savable
  have present : m.kb.HasNode (s.kb.upcoming 0) := by
    rw [KB.HasNode, linked.stored.nodes, List.map_append]
    exact List.mem_append_left _ (KB.hasNode_addChild .. |>.mpr (Or.inr rfl))
  have found := network.loadChild_network savable linked.stored
  refine ⟨s₁, ⟨run, fun w₀ fresh => ?_⟩, network.howToURI linked⟩
  exact linked.exists_run_load network.storable network.savable (by decide) present (by decide)
    found fresh

/-- The condition on the input is the one that is seen after the network has been saved. -/
theorem exists_restorable_iff :
    (∃ s₁, SolvedIssueRestorable platform store stack s i (some parent) key linkType s₁) ↔
      SolutionRestorable platform store stack s i (some parent) key linkType := by
  obtain ⟨s₁, kept, texts⟩ := network.exists_kept savable
  have same : (SolvedIssue.solution store i).resources.map (fun x =>
      (SolvedIssue.solutionBegun store i s s₁).textOf (store.howTo x).uri) =
        (SolvedIssue.solution store i).resources.map fun x =>
          (SolvedIssue.howToURI store stack s i (some parent) key linkType
            (store.howTo x).uri).text :=
    List.map_congr_left fun x _ => (texts _).1
  constructor
  · rintro ⟨s₂, restorable⟩
    -- the network leaves one state only
    obtain rfl : s₂ = s₁ :=
      (EStateM.Result.ok.inj (restorable.network.saves.symm.trans kept.saves)).2
    exact ⟨restorable.plain, restorable.own,
      fun x member => (texts _).2.mp (restorable.accepted x member), same ▸ restorable.apart⟩
  · intro restorable
    exact ⟨s₁, kept, restorable.plain, restorable.own,
      fun x member => (texts _).2.mpr (restorable.accepted x member), same ▸ restorable.apart⟩

end IssueNetworkStorable

/-- A solved issue that is restored has no HowTo with parameters. Where it is saved at a place of
its own, and its network can be stored and read, it is restored exactly when its solution meets the
condition: no HowTo has parameters, and the HowTos are stored below the solution under texts of
their own. -/
theorem solvedIssueRoundTrips_iff (platform : Platform) (store : IssueStore) (stack : ℕ) (s : World)
    (i : ℕ) (parent : {id // s.kb.HasNode id}) (key linkType : String)
    (className : ℕ → Option String) (savable : SolvedIssue.Savable store i s parent key linkType) :
    (SolvedIssueRoundTrips platform store stack s i (some parent) key linkType className →
      ∀ x ∈ (SolvedIssue.solution store i).resources, (store.howTo x).parameters = []) ∧
    ∀ objects,
      IssueNetworkStorable platform store stack s i (some parent) key linkType objects →
        (SolvedIssueRoundTrips platform store stack s i (some parent) key linkType className ↔
          SolutionRestorable platform store stack s i (some parent) key linkType) := by
  refine ⟨fun trips => trips.plain savable, fun objects network => ?_⟩
  have seen := network.exists_restorable_iff savable
  constructor
  · intro trips
    exact seen.mp (trips.exists_restorable savable)
  · intro restorable
    obtain ⟨s₁, restorable'⟩ := seen.mpr restorable
    exact restorable'.roundTrips savable

/-! ### How to install Firefox -/

/-- The objects of a solved issue with two HowTos, whose network has two concepts and a link. -/
def installFirefox : World where
  heap :=
    { uris := .ofList [{ name := "pleaseInstallFF" }, { name := "firefox" },
        { name := "InstallFirefoxSolvedIssue" }, { name := "InstallFirefoxSolution" },
        { name := "downloadHowTo" }, { name := "installHowTo" }, { name := "firefoxFrame" },
        { name := "install" }, { name := "object" }]
      concepts := .ofList
        [{ content := ⟨"firefox", "firefox"⟩, uri := 1 },
          { content := ⟨"install", "install"⟩, uri := 7 }]
      links := .ofList [{ source := 1, destination := 0, uri := 8 }]
      networks := .ofList [{ nodes := [0, 1], links := [0], uri := 0 }] }
  kb := .onlyRoot
  id2object _ := none

/-- The solved issue, whose HowTos have the parameters. -/
def firefoxIssue (parameters : List ℕ) : IssueStore where
  solvedIssue _ := { issue := 0, solution := 0, uri := 2 }
  solution _ := { resources := [0, 1], uri := 3 }
  howTo x := { parameters, uri := 4 + x }
  frame _ := { resources := InsertionMap.empty.insert 1 (.graph (.concept 0)), uri := 6 }

/-- The node of the solved issue has been stored. -/
def firefoxBegun : World :=
  SolvedIssue.begun (firefoxIssue []) 0 (some KB.rootId) "InstallFirefox" "stored_solutions_name"
    installFirefox

/-- What is saved with the network. -/
def firefoxObjects : List ResourceRef := [.network 0, .concept 0, .concept 1, .link 0]

theorem closed_installFirefox :
    DepthFirst.Closed installFirefox.heap.children Child.resource firefoxObjects := by
  unfold DepthFirst.Closed
  decide +kernel

/-- Neither the issue nor its solution shares a URI object with the network. -/
theorem uriRef_ne_of_reaches {r : ResourceRef} (reaches : DepthFirst.Reaches
    installFirefox.heap.children Child.resource (.network 0) r) :
    installFirefox.heap.uriRef r ≠ 2 ∧ installFirefox.heap.uriRef r ≠ 3 := by
  have all : ∀ r ∈ firefoxObjects,
      installFirefox.heap.uriRef r ≠ 2 ∧ installFirefox.heap.uriRef r ≠ 3 := by
    decide +kernel
  exact all r (closed_installFirefox.mem_of_reaches List.mem_cons_self reaches)

theorem installFirefox_savable (parameters : List ℕ) :
    SolvedIssue.Savable (firefoxIssue parameters) 0 installFirefox KB.rootId "InstallFirefox"
      "stored_solutions_name" where
  free := List.forall_mem_nil _
  type := by decide +kernel
  unread := List.forall_mem_nil _
  own _ reaches := (uriRef_ne_of_reaches reaches).1

theorem firefoxBegun_read {r : ResourceRef}
    (read : (firefoxBegun.withoutLinks 0).heap.ReadWith 0 r) :
    r ∈ [ResourceRef.network 0, .concept 0, .concept 1] :=
  read.mem List.mem_cons_self (by decide +kernel)

theorem firefoxBegun_storable :
    LinkedNetworkStorable .plain 4 firefoxBegun 0 "" conceptsNetworkName where
  concepts :=
    { valid := fun r member => by
        have all : ∀ r ∈ (firefoxBegun.linkedPlan 4 0 "" conceptsNetworkName).resources,
            (firefoxBegun.withoutLinks 0).heap.uid r = "" := by decide +kernel
        exact Or.inl (all r member)
      apart := by
        unfold SavePlan.AllApart SavePlan.Apart
        decide +kernel
      pass := fun _ _ _ _ _ _ => rfl
      accepted := fun _ _ => rfl
      keysRead := fun r read _ child edge _ _ => by
        have all : ∀ r ∈ [ResourceRef.network 0, .concept 0, .concept 1],
            ∀ child ∈ (firefoxBegun.withoutLinks 0).heap.children r, (KnowledgeURI.ofRaw
              ((firefoxBegun.linkedPlan 4 0 "" conceptsNetworkName).relationship 0
                child).key).isSome := by
          decide +kernel
        exact all r (firefoxBegun_read read) child edge }
  linksAccepted _ _ _ := rfl
  linksRead := by decide +kernel

theorem firefoxBegun_network : IssueNetworkStorable .plain (firefoxIssue []) 4 installFirefox 0
    (some KB.rootId) "InstallFirefox" "stored_solutions_name"
      [.network 0, .concept 0, .concept 1] where
  savable :=
    { closed := by
        unfold DepthFirst.Closed
        decide +kernel
      member := List.mem_cons_self
      deep := by decide }
  storable := firefoxBegun_storable
  own _ reaches := (uriRef_ne_of_reaches reaches).2

/-- Without parameters, the solved issue is restored. -/
theorem installFirefox_restored : SolvedIssueRoundTrips .plain (firefoxIssue []) 4 installFirefox 0
    (some KB.rootId) "InstallFirefox" "stored_solutions_name" fun _ => none := by
  refine ((solvedIssueRoundTrips_iff .plain (firefoxIssue []) 4 installFirefox 0
    ⟨KB.rootId, installFirefox.kb.hasRoot⟩ "InstallFirefox" "stored_solutions_name" (fun _ => none)
    (installFirefox_savable [])).2 _ firefoxBegun_network).mpr ?_
  refine ⟨fun _ _ => rfl, ?_, fun _ _ _ => rfl, ?_⟩
  · decide +kernel
  · decide +kernel

/-- With a parameter, it is not. -/
theorem parameters_lost : ¬ SolvedIssueRoundTrips .plain (firefoxIssue [0]) 4 installFirefox 0
    (some KB.rootId) "InstallFirefox" "stored_solutions_name" fun _ => none := by
  intro trips
  have plain := @SolvedIssueRoundTrips.plain _ _ _ installFirefox _
    ⟨KB.rootId, installFirefox.kb.hasRoot⟩ _ _ _ (installFirefox_savable [0]) trips
  exact nomatch plain 0 List.mem_cons_self

end ThinkingUnderstanding
