import ThinkingUnderstanding.Persistence.Growth
import ThinkingUnderstanding.Persistence.SolvedIssues

/-!
# The stored solutions

Solved issues are stored below the reference node, by the texts of their URIs. The list of
solutions is made of the children that are found there; when there is none, it is made of three
default solutions, which are not stored.

Nothing is read of a network that the table has for its node. So once the list has been made,
making it again depends only on the relationships of the solved issues and their solutions.

## Main definitions

* `KBAdapter.solutions`, `KBAdapter.solutionsAdd`
* `LoadedIssue.MadeOf` — a solved issue that has been made of a node
* `KB.storedSolutions` — the relationships by which solved issues are stored

## Main results

* `KBAdapter.madeOf_of_run_solutions` — the solutions that are returned are made of the nodes
* `KBAdapter.exists_run_solutions` — they are returned when the table has their networks
-/

namespace ThinkingUnderstanding

open Math Semantics

/-- `Constant.solutionsName`. -/
def solutionsName : String := "stored_solutions_name"

/-- What the default solutions are made of, which `Defaults` makes once. -/
structure SolutionDefaults where
  installFirefoxHowTo : LoadedHowTo
  reinstallIEHowTo : LoadedHowTo
  pleaseInstallFFSimulation : NetworkRef
  iHaveProblemWithIE8Simulation : NetworkRef
  iHaveProblemWithIE8Reformulation : NetworkRef

section Adapter

variable (platform : Platform) (className : ℕ → Option String) (stack : ℕ)
  (defaults : SolutionDefaults)

/-- `SolvedIssue.load`, for the map of a node. -/
def SolvedIssue.loadMap (selfMap : Node) : KBProgram LoadedIssue := do
  let issue ← ConceptNetwork.load platform stack (some selfMap.id) "" conceptsNetworkName
  let solution ← Solution.load platform className (some selfMap.id) "" solutionName
  let uri ← createURI (KnowledgeURI.ofMap platform selfMap)
  return { issue, solution, uri, probability := .ofMap selfMap }

/-- `SolvedIssue.save`, without the record of the operations. -/
def SolvedIssue.saveWithoutRecord (store : IssueStore) (i : ℕ) (parent : Option ℕ)
    (key linkType : String) : KBProgram Unit := fun s =>
  match Reporting.recordedSave platform (.n4jkb store) store (stack + 1) s (.solvedIssue i) parent
      key linkType with
  | .ok _ t => .ok () t.toWorld
  | .error e t => .error e t.toWorld

namespace KBAdapter

/-- `new KnowledgeURI("solutions", name, "0.1")`. -/
def createSolutionsURI (name : String) : KBProgram UriRef :=
  createURI { namespace_ := { object := 2, text := "solutions" }, name, revision := "0.1" }

/-- `getTestSolvedIssue1`, `getTestSolvedIssue2` and `getTestSolvedIssue3`. -/
def getTestSolvedIssue (howTo : LoadedHowTo) (issue : NetworkRef) (solution solvedIssue : String) :
    KBProgram LoadedIssue := do
  let s ← createSolutionsURI solution
  let uri ← createSolutionsURI solvedIssue
  return { issue, solution := { resources := [howTo], uri := s, probability := {} }, uri
           probability := {} }

/-- `KBAdapter.getDefaultSolutions`. -/
def getDefaultSolutions : KBProgram (List LoadedIssue) := do
  let first ← getTestSolvedIssue defaults.installFirefoxHowTo defaults.pleaseInstallFFSimulation
    "InstallFirefoxSolution" "InstallFirefoxSolvedIssue"
  let second ← getTestSolvedIssue defaults.reinstallIEHowTo defaults.iHaveProblemWithIE8Simulation
    "ReinstallIESolution" "ReinstallIESolvedIssue"
  let third ← getTestSolvedIssue defaults.reinstallIEHowTo
    defaults.iHaveProblemWithIE8Reformulation "ReinstallIESolution" "ReinstallIESolvedIssue"
  return [first, second, third]

/-- `KBAdapter.solutions`. -/
def solutions : KBProgram (List LoadedIssue) := do
  let maps := (← get).kb.loadChildrenList platform (some KB.rootId) solutionsName
  let res ← maps.mapM (SolvedIssue.loadMap platform className stack)
  if res.isEmpty then getDefaultSolutions defaults else return res

/-- `KBAdapter.solutionsAdd`. -/
def solutionsAdd (store : IssueStore) (item : ℕ) : KBProgram (List LoadedIssue) := do
  let key ← uriText platform (store.solvedIssue item).uri
  SolvedIssue.saveWithoutRecord platform stack store item (some KB.rootId) key solutionsName
  solutions platform className stack defaults

end KBAdapter

end Adapter

/-- The relationships by which solved issues are stored. -/
def KB.storedSolutions (kb : KB) : List Relationship :=
  (kb.relationshipsOf rootId solutionsName).filter fun rel => rel.endNode ≠ rootId

/-! ### What the list is made from -/

namespace World.Extended

variable {w₀ : World} {platform : Platform} {className : ℕ → Option String}

theorem maintains_loadHowTo (selfMap : Node) :
    Maintains w₀.Extended (HowTo.load platform className selfMap) fun _ => True := by
  have resource : ∀ m, Maintains w₀.Extended (HowTo.oneResource platform className m)
      fun _ => True := by
    intro m
    unfold HowTo.oneResource
    split
    · exact maintains_conceptOfMap m
    · split
      · exact maintains_throw _
      · exact maintains_throw _
  have frame : ∀ node, Maintains w₀.Extended (HowTo.oneFrame platform className node)
      fun _ => True := by
    intro node
    refine maintains_get_bind fun w _ =>
      (Maintains.mapM _ fun m _ => resource m).bind fun cs _ => ?_
    exact (maintains_createURI _).bind fun uri _ => maintains_get_bind fun w _ =>
      maintains_pure trivial
  refine maintains_get_bind fun w _ =>
    (Maintains.mapM _ fun node _ => frame node).bind fun _ _ => ?_
  exact (maintains_createURI _).bind fun uri _ => maintains_pure trivial

theorem maintains_loadSolution (parent : Option ℕ) (key linkType : String) :
    Maintains w₀.Extended (Solution.load platform className parent key linkType) fun _ => True := by
  refine maintains_get_bind fun w _ => maintains_get_bind fun w _ => ?_
  refine (Maintains.mapM _ fun map _ => maintains_loadHowTo map).bind fun _ _ => ?_
  exact (maintains_createURI _).bind fun uri _ => maintains_pure trivial

theorem maintains_solutions (stack : ℕ) (defaults : SolutionDefaults) :
    Maintains w₀.Extended (KBAdapter.solutions platform className stack defaults)
      fun _ => True := by
  have map : ∀ selfMap, Maintains w₀.Extended (SolvedIssue.loadMap platform className stack selfMap)
      fun _ => True := by
    intro selfMap
    refine (maintains_loadNetwork stack _ _ _).bind fun _ _ => ?_
    refine (maintains_loadSolution _ _ _).bind fun _ _ => ?_
    exact (maintains_createURI _).bind fun uri _ => maintains_pure trivial
  have default : ∀ howTo issue solution solvedIssue, Maintains w₀.Extended
      (KBAdapter.getTestSolvedIssue howTo issue solution solvedIssue) fun _ => True := by
    intro howTo issue solution solvedIssue
    exact (maintains_createURI _).bind fun s _ => (maintains_createURI _).bind fun uri _ =>
      maintains_pure trivial
  refine maintains_get_bind fun w _ => (Maintains.mapM _ fun selfMap _ => map selfMap).bind
    fun res _ => ?_
  split
  · refine (default _ _ _ _).bind fun _ _ => (default _ _ _ _).bind fun _ _ => ?_
    exact (default _ _ _ _).bind fun _ _ => maintains_pure trivial
  · exact maintains_pure trivial

end World.Extended

/-! ### What is made of a node -/

/-- The table has the network of a solved issue for its node. -/
def World.HasNetwork (platform : Platform) (w : World) (map : Node) (n : NetworkRef) : Prop :=
  ∃ m, w.kb.loadChild platform (some map.id) "" conceptsNetworkName = some m ∧
    platform.acceptsURI (KnowledgeURI.ofMap platform m).format ∧
    w.id2object m.id = some (.network n)

/-- The HowTos of a solved issue, as the nodes that are read. -/
def KB.howToMaps (platform : Platform) (kb : KB) (map : Node) : List Node :=
  kb.loadChildrenList platform
    ((kb.loadChild platform (some map.id) "" solutionName).map Node.id) defaultLinkName

/-- A solved issue that has been made of a node. -/
structure LoadedIssue.MadeOf (platform : Platform) (w : World) (map : Node) (a : LoadedIssue) :
    Prop where
  issue : w.HasNetwork platform map a.issue
  howTos : List.Forall₂ (fun map h => LoadedHowTo.MadeOf platform w map h)
    (w.kb.howToMaps platform map) a.solution.resources
  inside : a.uri < w.heap.uris.size
  uri : w.heap.uri a.uri = KnowledgeURI.ofMap platform map

variable {platform : Platform} {className : ℕ → Option String} {stack : ℕ}
  {defaults : SolutionDefaults}
  {w w' : World} {map : Node} {a : LoadedIssue} {n : NetworkRef}

theorem World.HasNetwork.extended (known : w.HasNetwork platform map n)
    (extended : w.Extended w') : w'.HasNetwork platform map n := by
  obtain ⟨m, found, accepted, cached⟩ := known
  exact ⟨m, extended.kb ▸ found, accepted, extended.kept _ _ cached⟩

theorem LoadedIssue.MadeOf.extended (made : a.MadeOf platform w map) (extended : w.Extended w') :
    a.MadeOf platform w' map where
  issue := made.issue.extended extended
  howTos := by
    rw [extended.kb]
    exact made.howTos.imp fun _ _ before => before.extended extended
  inside := made.inside.trans_le extended.uris.size
  uri := (extended.uris.get a.uri made.inside).trans made.uri

/-- A network that the table has is returned, and nothing else is done. -/
theorem World.HasNetwork.run_load (known : w.HasNetwork platform map n) :
    (ConceptNetwork.load platform stack (some map.id) "" conceptsNetworkName).run w =
      .ok n w := by
  obtain ⟨m, found, accepted, cached⟩ := known
  simp only [ConceptNetwork.load, EStateM.run_bind, EStateM.run_get, found,
    KBMap.run_loadFromCache accepted, cached]
  rfl

section Load

variable (lacks : w.kb.Lacks conceptsLinkName)
include lacks

/-- A solved issue is made of its node once its network has been loaded. -/
theorem SolvedIssue.run_loadMap {w₁ : World} (className : ℕ → Option String)
    (loaded : (ConceptNetwork.load platform stack (some map.id) "" conceptsNetworkName).run w =
      .ok n w₁) :
    ∃ a w', (SolvedIssue.loadMap platform className stack map).run w = .ok a w' ∧
      w.Extended w' ∧ a.MadeOf platform w' map := by
  have extended₁ := World.Extended.of_run
    (World.Extended.maintains_loadNetwork stack _ _ _) loaded
  obtain ⟨m, found, accepted, cached, -⟩ := run_loadNetwork_eq_ok loaded
  rw [← extended₁.kb] at lacks found
  obtain ⟨solution, w₂, run₂, extended₂, made⟩ := Solution.run_load platform className lacks
    (some map.id) "" solutionName
  have created : (createURI (KnowledgeURI.ofMap platform map)).run w₂ = .ok w₂.heap.uris.size
      { w₂ with heap := { w₂.heap with
        uris := w₂.heap.uris.alloc (KnowledgeURI.ofMap platform map) } } := rfl
  have extended₃ := World.Extended.of_run (World.Extended.maintains_createURI _) created
  have later := extended₂.trans extended₃
  refine ⟨⟨n, solution, w₂.heap.uris.size, .ofMap map⟩, _, ?_, extended₁.trans later, ?_⟩
  · simp only [SolvedIssue.loadMap, EStateM.run_bind, loaded, run₂, created]
    rfl
  constructor
  case issue => exact World.HasNetwork.extended ⟨m, found, accepted, cached⟩ later
  case howTos =>
    rw [← extended₂.kb] at made
    exact made.imp fun _ _ before => before.extended extended₃
  case inside => exact Nat.lt_of_lt_of_eq (Nat.lt_succ_self _) (Arena.size_alloc ..).symm
  case uri => exact Arena.get_alloc_size ..

/-- A solved issue that is returned has been made of the node. -/
theorem SolvedIssue.madeOf_of_run_loadMap
    (run : (SolvedIssue.loadMap platform className stack map).run w = .ok a w') :
    w.Extended w' ∧ a.MadeOf platform w' map := by
  obtain ⟨n, w₁, loaded, -⟩ := run_bind_eq_ok_iff.mp run
  obtain ⟨a', w'', run', made⟩ := SolvedIssue.run_loadMap lacks className loaded
  obtain ⟨rfl, rfl⟩ := EStateM.Result.ok.inj (run'.symm.trans run)
  exact made

/-- Solved issues are made of the nodes, one by one. -/
theorem SolvedIssue.madeOf_of_run_mapM {maps : List Node} {res : List LoadedIssue}
    (run : (maps.mapM (SolvedIssue.loadMap platform className stack)).run w = .ok res w') :
    w.Extended w' ∧ List.Forall₂ (fun map a => LoadedIssue.MadeOf platform w' map a) maps res := by
  induction maps generalizing w res with
  | nil =>
    obtain ⟨rfl, rfl⟩ := EStateM.Result.ok.inj run
    exact ⟨.refl w, .nil⟩
  | cons map maps ih =>
    rw [List.mapM_cons] at run
    obtain ⟨a, w₁, first, run⟩ := run_bind_eq_ok_iff.mp run
    obtain ⟨rest, w₂, later, done⟩ := run_bind_eq_ok_iff.mp run
    obtain ⟨rfl, rfl⟩ := EStateM.Result.ok.inj done
    obtain ⟨extended₁, made⟩ := SolvedIssue.madeOf_of_run_loadMap lacks first
    rw [← extended₁.kb] at lacks
    obtain ⟨extended₂, all⟩ := ih lacks later
    exact ⟨extended₁.trans extended₂, .cons (made.extended extended₂) all⟩

/-- They are, when the table has their networks. -/
theorem SolvedIssue.exists_run_mapM (className : ℕ → Option String) (stack : ℕ) {maps : List Node}
    (known : ∀ map ∈ maps, ∃ n, w.HasNetwork platform map n) :
    ∃ res w', (maps.mapM (SolvedIssue.loadMap platform className stack)).run w = .ok res w' := by
  induction maps generalizing w with
  | nil => exact ⟨[], w, rfl⟩
  | cons map maps ih =>
    rw [List.forall_mem_cons] at known
    obtain ⟨⟨n, here⟩, later⟩ := known
    have load : (ConceptNetwork.load platform stack (some map.id) "" conceptsNetworkName).run w =
        .ok n w := here.run_load
    obtain ⟨a, w₁, first, extended, -⟩ := SolvedIssue.run_loadMap lacks className load
    rw [← extended.kb] at lacks
    obtain ⟨res, w₂, rest⟩ := ih lacks fun map member =>
      (later map member).imp fun _ known => known.extended extended
    refine ⟨a :: res, w₂, ?_⟩
    simp only [List.mapM_cons, EStateM.run_bind, first, rest, EStateM.run_pure]

end Load

namespace KBAdapter

variable {res : List LoadedIssue}

/-- When solved issues are stored, those that are returned have been made of their nodes. -/
theorem madeOf_of_run_solutions (lacks : w.kb.Lacks conceptsLinkName)
    (stored : w.kb.loadChildrenList platform (some KB.rootId) solutionsName ≠ [])
    (run : (solutions platform className stack defaults).run w = .ok res w') :
    w.Extended w' ∧ List.Forall₂ (fun map a => LoadedIssue.MadeOf platform w' map a)
      (w.kb.loadChildrenList platform (some KB.rootId) solutionsName) res := by
  obtain ⟨_, _, read, run⟩ := run_bind_eq_ok_iff.mp run
  cases read
  obtain ⟨res', w₁, loaded, run⟩ := run_bind_eq_ok_iff.mp run
  obtain ⟨extended, made⟩ := SolvedIssue.madeOf_of_run_mapM lacks loaded
  have some_ : ¬ res'.isEmpty := by
    rw [List.isEmpty_iff_length_eq_zero, ← made.length_eq, List.length_eq_zero_iff]
    exact stored
  rw [if_neg some_] at run
  obtain ⟨rfl, rfl⟩ := EStateM.Result.ok.inj run
  exact ⟨extended, made⟩

/-- When the table has the networks of all solved issues, these are returned. -/
theorem exists_run_solutions (lacks : w.kb.Lacks conceptsLinkName)
    (className : ℕ → Option String) (stack : ℕ) (defaults : SolutionDefaults)
    (known : ∀ map ∈ w.kb.loadChildrenList platform (some KB.rootId) solutionsName,
      ∃ n, w.HasNetwork platform map n) :
    ∃ res w', (solutions platform className stack defaults).run w = .ok res w' := by
  obtain ⟨res, w₁, loaded⟩ := SolvedIssue.exists_run_mapM lacks className stack known
  simp only [solutions, EStateM.run_bind, EStateM.run_get, loaded]
  split_ifs
  · exact ⟨_, _, rfl⟩
  · exact ⟨_, _, rfl⟩

end KBAdapter

end ThinkingUnderstanding
