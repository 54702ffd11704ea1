import ThinkingUnderstanding.Persistence.Extended
import ThinkingUnderstanding.Persistence.SavesAlike

/-!
# Loading solved issues

A solved issue is stored as a node, with its network and its solution below it; below the
solution are its HowTos, and below each of them its frames with what these hold. They are not
read as they are written. The frames of a HowTo are saved with the default type, and looked for
with another one, with which nothing is ever saved. What a frame holds is read only when the
key under which the class of a node is stored is itself the name of a class.

## Main definitions

* `HowTo.load`, `Solution.load`, `SolvedIssue.load`

## Main results

* `HowTo.run_mapM_load` — HowTos without parameters are made of the nodes, where nothing has been
  saved with the type
* `SolvedIssue.run_load`, `SolvedIssue.exists_of_run_load` — a solved issue is loaded when its
  network is
-/

namespace ThinkingUnderstanding

open Math Semantics

/-- `Constant.CONCEPTS_LINK_NAME`. -/
def conceptsLinkName : String := "conceptsLink"

/-- `Constant.KB_CLASS_NAME`, the key of the property with the name of the class. -/
def kbClassName : String := "KB_CLASS_NAME"

/-- `Frame`, as far as it is loaded. -/
structure LoadedFrame where
  resources : InsertionMap UriRef ConceptRef
  uri : UriRef
  probability : Probability := {}

/-- `HowTo`, as it is loaded. -/
structure LoadedHowTo where
  parameters : List LoadedFrame
  uri : UriRef
  probability : Probability

/-- `Solution`, as it is loaded. -/
structure LoadedSolution where
  resources : List LoadedHowTo
  uri : UriRef
  probability : Probability

/-- `SolvedIssue`, as it is loaded. -/
structure LoadedIssue where
  issue : NetworkRef
  solution : LoadedSolution
  uri : UriRef
  probability : Probability

/-- `Frame.apply`, for a list of concepts and a URI made of a name. -/
def Frame.apply (someList : List ConceptRef) (name : String) : KBProgram LoadedFrame := do
  let uri ← createURI { name }
  let heap := (← get).heap
  return { resources := .ofList (someList.map fun c => ((heap.concept c).uri, c)), uri }

section Load

variable (platform : Platform) (className : ℕ → Option String)

/-- `oneResource` in `HowTo.load`. It compares the key, and not what is stored under it, with the
name of the class; `className` gives what is stored. -/
def HowTo.oneResource (m : Node) : KBProgram ConceptRef :=
  if kbClassName = "tu.model.knowledge.domain.Concept$" then Concept.ofMap platform m
  else
    match className m.id with
    | some name => throw (.unexpectedException
        ("HowTo shouldn't contain " ++ name ++ " for ID tu.model.knowledge.KBNodeId"))
    | none => throw (.exception ("key not found: " ++ kbClassName))

/-- `oneFrame` in `HowTo.load`. -/
def HowTo.oneFrame (node : ℕ) : KBProgram LoadedFrame := do
  let children := (← get).kb.loadChildrenList platform (some node) conceptsLinkName
  Frame.apply (← children.mapM (HowTo.oneResource platform className)) "frameInHowTo"

/-- `HowTo.load`. -/
def HowTo.load (selfMap : Node) : KBProgram LoadedHowTo := do
  let framesID :=
    ((← get).kb.loadChildrenList platform (some selfMap.id) conceptsLinkName).map Node.id
  let parameters ← framesID.mapM (HowTo.oneFrame platform className)
  let uri ← createURI (KnowledgeURI.ofMap platform selfMap)
  return { parameters, uri, probability := .ofMap selfMap }

/-- `new KnowledgeURI(map)`, for the empty map. -/
def KnowledgeURI.ofEmptyMap : KnowledgeURI where
  name := platform.randomName KB.rootId

/-- `Solution.load`. When there is no child an error is logged, and the solution is made of the
empty map: its HowTos are then the children of the reference node. -/
def Solution.load : Loader LoadedSolution := fun parent key linkType => do
  let selfMap := (← get).kb.loadChild platform parent key linkType
  let children := (← get).kb.loadChildrenList platform (selfMap.map Node.id) defaultLinkName
  let resources ← children.mapM (HowTo.load platform className)
  let uri ← createURI
    (selfMap.elim (KnowledgeURI.ofEmptyMap platform) (KnowledgeURI.ofMap platform))
  return { resources, uri, probability := selfMap.elim {} .ofMap }

/-- `SolvedIssue.load`, on a stack of the given depth. -/
def SolvedIssue.load (stack : ℕ) : Loader LoadedIssue := fun parent key linkType => do
  match (← get).kb.loadChild platform parent key linkType with
  | none => throw (.unexpectedException (notLoaded key linkType "tu.model.knowledge.KBNodeId"))
  | some selfMap =>
      let issue ← ConceptNetwork.load platform stack (some selfMap.id) "" conceptsNetworkName
      let solution ← Solution.load platform className (some selfMap.id) "" solutionName
      let uri ← createURI (KnowledgeURI.ofMap platform selfMap)
      return { issue, solution, uri, probability := .ofMap selfMap }

end Load

/-! ### What is loaded where nothing has been saved with the type of frames -/

variable {platform : Platform} {className : ℕ → Option String}

/-- Nothing has been saved with the type. -/
def KB.Lacks (kb : KB) (type : String) : Prop := ∀ rel ∈ kb.relationships, rel.type ≠ type

theorem KB.relationshipsOf_of_lacks {kb : KB} {type : String} (lacks : kb.Lacks type) (id : ℕ) :
    kb.relationshipsOf id type = [] := by
  refine List.filter_eq_nil_iff.mpr fun rel present here => ?_
  exact lacks rel present (of_decide_eq_true here).2

theorem KB.loadChildrenList_of_lacks {kb : KB} {type : String} (lacks : kb.Lacks type)
    (parent : Option ℕ) : kb.loadChildrenList platform parent type = [] := by
  have none : platform.order [] = [] := (platform.order_perm []).eq_nil
  have keys : platform.keyOrder [] = [] := (platform.keyOrder_perm []).eq_nil
  have map : kb.loadChildrenMap platform parent type = .ofList [] := by
    rw [KB.loadChildrenMap, KB.relationshipsOf_of_lacks lacks, none]
    rfl
  rw [KB.loadChildrenList, KB.childKeys, map]
  change (platform.keyOrder []).filterMap _ = []
  rw [keys]
  rfl

/-- A HowTo that has been made of a node. -/
structure LoadedHowTo.MadeOf (platform : Platform) (w : World) (map : Node) (h : LoadedHowTo) :
    Prop where
  parameters : h.parameters = []
  inside : h.uri < w.heap.uris.size
  uri : w.heap.uri h.uri = KnowledgeURI.ofMap platform map
  probability : h.probability = .ofMap map

theorem LoadedHowTo.MadeOf.extended {w w' : World} {map : Node} {h : LoadedHowTo}
    (made : h.MadeOf platform w map) (extended : w.Extended w') : h.MadeOf platform w' map where
  parameters := made.parameters
  inside := made.inside.trans_le extended.uris.size
  uri := (extended.uris.get h.uri made.inside).trans made.uri
  probability := made.probability

variable (platform className) {w : World} (lacks : w.kb.Lacks conceptsLinkName)
include lacks

/-- A HowTo is made of its node, without parameters. -/
theorem HowTo.run_load (selfMap : Node) :
    ∃ h w', (HowTo.load platform className selfMap).run w = .ok h w' ∧ w.Extended w' ∧
      h.MadeOf platform w' selfMap := by
  have created : ∀ uri : KnowledgeURI, (createURI uri).run w = .ok w.heap.uris.size
      { w with heap := { w.heap with uris := w.heap.uris.alloc uri } } := fun _ => rfl
  refine ⟨⟨[], w.heap.uris.size, .ofMap selfMap⟩,
    { w with
      heap := { w.heap with uris := w.heap.uris.alloc (KnowledgeURI.ofMap platform selfMap) } },
    ?_, ?_, rfl, ?_, ?_, rfl⟩
  · simp only [HowTo.load, EStateM.run_bind, EStateM.run_get, KB.loadChildrenList_of_lacks lacks,
      List.map_nil, List.mapM_nil, EStateM.run_pure, created]
  · exact World.Extended.of_run (World.Extended.maintains_createURI _) (created _)
  · exact Nat.lt_of_lt_of_eq (Nat.lt_succ_self _) (Arena.size_alloc w.heap.uris _).symm
  · exact Arena.get_alloc_size w.heap.uris _

/-- HowTos are made of the nodes, one by one. -/
theorem HowTo.run_mapM_load (maps : List Node) :
    ∃ hs w', (maps.mapM (HowTo.load platform className)).run w = .ok hs w' ∧ w.Extended w' ∧
      List.Forall₂ (fun map h => LoadedHowTo.MadeOf platform w' map h) maps hs := by
  induction maps generalizing w with
  | nil => exact ⟨[], w, rfl, .refl w, .nil⟩
  | cons map maps ih =>
    obtain ⟨h, w₁, run₁, extended₁, made⟩ := HowTo.run_load platform className lacks map
    rw [← extended₁.kb] at lacks
    obtain ⟨hs, w₂, run₂, extended₂, rest⟩ := ih lacks
    refine ⟨h :: hs, w₂, ?_, extended₁.trans extended₂, .cons (made.extended extended₂) rest⟩
    simp only [List.mapM_cons, EStateM.run_bind, run₁, run₂, EStateM.run_pure]

/-- A solution is made of the node that is found, and its HowTos of the children. -/
theorem Solution.run_load (parent : Option ℕ) (key linkType : String) :
    ∃ solution w', (Solution.load platform className parent key linkType).run w = .ok solution w' ∧
      w.Extended w' ∧ List.Forall₂ (fun map h => LoadedHowTo.MadeOf platform w' map h)
        (w.kb.loadChildrenList platform
          ((w.kb.loadChild platform parent key linkType).map Node.id) defaultLinkName)
        solution.resources := by
  obtain ⟨hs, w₁, run₁, extended₁, made⟩ := HowTo.run_mapM_load platform className lacks
    (w.kb.loadChildrenList platform
      ((w.kb.loadChild platform parent key linkType).map Node.id) defaultLinkName)
  let uri := (w.kb.loadChild platform parent key linkType).elim (KnowledgeURI.ofEmptyMap platform)
    (KnowledgeURI.ofMap platform)
  have created : (createURI uri).run w₁ = .ok w₁.heap.uris.size
      { w₁ with heap := { w₁.heap with uris := w₁.heap.uris.alloc uri } } := rfl
  have extended₂ := World.Extended.of_run (World.Extended.maintains_createURI uri) created
  refine ⟨⟨hs, w₁.heap.uris.size, (w.kb.loadChild platform parent key linkType).elim {} .ofMap⟩,
    _, ?_, extended₁.trans extended₂, made.imp fun map h before => before.extended extended₂⟩
  simp only [Solution.load, EStateM.run_bind, EStateM.run_get, run₁]
  rfl

/-- A solved issue is loaded when it is found and its network loaded. -/
theorem SolvedIssue.run_load {stack : ℕ} {parent : Option ℕ} {key linkType : String}
    {selfMap : Node} {n : NetworkRef} {w₁ : World}
    (found : w.kb.loadChild platform parent key linkType = some selfMap)
    (loaded : (ConceptNetwork.load platform stack (some selfMap.id) "" conceptsNetworkName).run w =
      .ok n w₁) :
    ∃ issue w', (SolvedIssue.load platform className stack parent key linkType).run w =
        .ok issue w' ∧
      List.Forall₂ (fun map h => LoadedHowTo.MadeOf platform w' map h)
        (w.kb.loadChildrenList platform ((w.kb.loadChild platform (some selfMap.id) ""
          solutionName).map Node.id) defaultLinkName)
        issue.solution.resources := by
  have extended₁ := World.Extended.of_run
    (World.Extended.maintains_loadNetwork stack _ _ _) loaded
  rw [← extended₁.kb] at lacks
  obtain ⟨solution, w₂, run₂, -, made⟩ := Solution.run_load platform className lacks
    (some selfMap.id) "" solutionName
  rw [extended₁.kb] at made
  have created : (createURI (KnowledgeURI.ofMap platform selfMap)).run w₂ = .ok w₂.heap.uris.size
      { w₂ with heap := { w₂.heap with
        uris := w₂.heap.uris.alloc (KnowledgeURI.ofMap platform selfMap) } } := rfl
  have extended₃ := World.Extended.of_run (World.Extended.maintains_createURI _) created
  refine ⟨⟨n, solution, w₂.heap.uris.size, .ofMap selfMap⟩, _, ?_,
    made.imp fun map h before => before.extended extended₃⟩
  simp only [SolvedIssue.load, EStateM.run_bind, EStateM.run_get, found, loaded, run₂, created]
  rfl

/-- If a solved issue is loaded, it has been found, its network loaded, and its HowTos have been
made of the children of its solution. -/
theorem SolvedIssue.exists_of_run_load {stack : ℕ} {parent : Option ℕ} {key linkType : String}
    {issue : LoadedIssue} {w' : World}
    (run : (SolvedIssue.load platform className stack parent key linkType).run w = .ok issue w') :
    ∃ selfMap, w.kb.loadChild platform parent key linkType = some selfMap ∧
      (∃ n w₁, (ConceptNetwork.load platform stack (some selfMap.id) "" conceptsNetworkName).run w =
        .ok n w₁) ∧
      List.Forall₂ (fun map h => LoadedHowTo.MadeOf platform w' map h)
        (w.kb.loadChildrenList platform ((w.kb.loadChild platform (some selfMap.id) ""
          solutionName).map Node.id) defaultLinkName)
        issue.solution.resources := by
  cases found : w.kb.loadChild platform parent key linkType with
  | none =>
    simp only [SolvedIssue.load, EStateM.run_bind, EStateM.run_get, found] at run
    exact nomatch run
  | some selfMap =>
    cases loaded : (ConceptNetwork.load platform stack (some selfMap.id) ""
        conceptsNetworkName).run w with
    | ok n w₁ =>
      obtain ⟨issue', w'', run', made⟩ := SolvedIssue.run_load platform className lacks found loaded
      obtain ⟨rfl, rfl⟩ := EStateM.Result.ok.inj (run'.symm.trans run)
      exact ⟨selfMap, rfl, ⟨n, w₁, loaded⟩, made⟩
    | error e w₁ =>
      simp only [SolvedIssue.load, EStateM.run_bind, EStateM.run_get, found, loaded] at run
      exact nomatch run

end ThinkingUnderstanding
