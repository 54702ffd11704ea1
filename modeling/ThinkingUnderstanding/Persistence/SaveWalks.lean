import ThinkingUnderstanding.Persistence.SaveResults
import ThinkingUnderstanding.Semantics.Walking

/-!
# When a save reports failure

Which operations a save performs does not depend on their results. They are those of a walk of the
graph of resources: a resource that is met for the first time is stored as a node, one that is met
again is linked. What the walk cannot know is which operations the knowledge base refuses. So
whether a save reports failure is a matter of the graph, of which the walk lists the
operations, and of the pattern of those that are refused: a save reports failure exactly when
the knowledge base refuses an operation whose result is thrown away only along with one whose
result is not.

## Main definitions

* `PlannedOperation` — an operation of a walk, whose result is not known
* `Walking.walkRoot` — the walk of the graph
* `KBService.Refuses` — the pattern of failures
* `FailsVisibly` — when a save reports failure

## Main results

* `Walking.listed_save` — a save performs the operations of the walk
* `reportsFailure_iff` — for every graph and every knowledge base
-/

namespace ThinkingUnderstanding

open Math Semantics

/-- An operation that is to be performed: where, innermost call first, and in which state. -/
structure PlannedOperation where
  callers : List CallSite
  operation : KBOperation
  before : World

/-- The operation is performed. -/
def KBService.perform (kb : KBService) : KBOperation → KBProgram Bool
  | .saveResource child parent key linkType => kb.saveResource child parent key linkType
  | .createLink parent child linkType key => kb.createLink parent child linkType key

/-- The knowledge base answers `false` to the operation in the state. -/
def KBService.Refuses (kb : KBService) (w : World) (operation : KBOperation) : Prop :=
  returned ((kb.perform operation).run w) = some false

/-- The result of the operation, or that of a call it is made in, is thrown away. -/
def PlannedOperation.Dropped (op : PlannedOperation) : Prop :=
  op.operation.Unheeded ∨ ∃ site ∈ op.callers, ¬ site.Heeded

/-- A walk of the graph, which lists operations. -/
abbrev Walk := KBProgram (List PlannedOperation)

namespace Walking

variable (platform : Platform) (kb : KBService) (store : IssueStore)

/-- An operation, whatever its result. -/
def perform (callers : List CallSite) (operation : KBOperation) : Walk := do
  let before ← get
  let _answer ← kb.perform operation
  return [⟨callers, operation, before⟩]

/-- The uid, or the text, is in the list buffer; otherwise it is there from now on. -/
def metBefore (uid : String) : KBProgram Bool := do
  if uid = "" then return false
  if uid ∈ (← get).saved then return true
  modify fun w => { w with saved := w.saved ++ [uid] }
  return false

/-- The walk from a resource: chain of calls, resource, parent, key and type of the link. -/
abbrev Walker := List CallSite → SavedResource → Option ℕ → String → String → Walk

/-- To a child. -/
def walkInto (walk : Walker) (callers : List CallSite) (site : CallSite)
    (convert : KBProgram (Option ℕ)) (call : Reporting.Call) : Walk := do
  let this ← convert
  let key ← call.key
  walk (site :: callers) call.resource this key call.linkType

/-- From a concept, a phrase or a network. -/
def walkWithChildren (walk : Walker) (children : Heap → List Child) (callers : List CallSite)
    (this : ResourceRef) (parent : Option ℕ) (key linkType : String) : Walk := do
  let refObject ← KBMap.get this
  if ← metBefore ((← get).heap.uid this) then
    perform kb callers (.createLink parent refObject linkType key)
  else do
    let node ← perform kb callers (.saveResource (.graph this) parent key linkType)
    let below ← (do
      appendToSave this
      let heap := (← get).heap
      let calls : List Reporting.Call := (children heap).map fun child =>
        { resource := .graph child.resource, key := child.keyText platform
          linkType := child.linkType }
      inTurn calls (walkInto walk callers .child (KBMap.get this)))
    return node ++ below

/-- From a sentence or a narrative. -/
def walkNarrated (walk : Walker) (callers : List CallSite) (this : SavedResource) (u : UriRef)
    (calls : List Reporting.Call) (parent : Option ℕ) (key linkType : String) : Walk := do
  let uri ← uriText platform u
  if uri ∈ (← get).saved then do
    let child ← KBMap.getURI u
    perform kb callers (.createLink parent child linkType key)
  else do
    modify fun w => { w with saved := w.saved ++ [uri] }
    let node ← perform kb callers (.saveResource this parent key linkType)
    let below ← inTurn calls (walkInto walk callers .child (KBMap.getURI u))
    return node ++ below

/-- With an empty list buffer. -/
def withEmptyList (walk : Walk) : Walk := do
  let saved := (← get).saved
  modify fun w => { w with saved := [] }
  let items ← walk
  modify fun w => { w with saved := saved }
  return items

/-- From a HowTo, to its frames and their resources. -/
def walkHowTo (walk : Walker) (callers : List CallSite) (i : ℕ) (parent : Option ℕ)
    (key linkType : String) : Walk := do
  let howTo := store.howTo i
  let node ← perform kb callers (.saveResource (.howTo i) parent key linkType)
  let below ← inTurn howTo.parameters fun x => do
    let frame := store.frame x
    let this ← KBMap.getURI howTo.uri
    let key ← uriText platform frame.uri
    let node ← perform kb (.frame :: callers) (.saveResource (.frame x) this key defaultLinkName)
    let below ← inTurn frame.resources.entries fun (k, y) => do
      let x ← KBMap.getURI frame.uri
      let key ← uriText platform k
      withEmptyList (walk (.frameResource :: callers) y x key defaultLinkName)
    return node ++ below
  return node ++ below

/-- From a solution, to its HowTos. -/
def walkSolution (walk : Walker) (callers : List CallSite) (i : ℕ) (parent : Option ℕ)
    (key linkType : String) : Walk := do
  let solution := store.solution i
  let node ← perform kb callers (.saveResource (.solution i) parent key linkType)
  let below ← inTurn solution.resources fun x => do
    let this ← KBMap.getURI solution.uri
    let key ← uriText platform (store.howTo x).uri
    walkHowTo platform kb store walk (.howTo :: callers) x this key defaultLinkName
  return node ++ below

/-- From a solved issue, to its network and its solution. -/
def walkSolvedIssue (walk : Walker) (callers : List CallSite) (i : ℕ) (parent : Option ℕ)
    (key linkType : String) : Walk := do
  let solvedIssue := store.solvedIssue i
  let node ← perform kb callers (.saveResource (.solvedIssue i) parent key linkType)
  let below ← (do
    let this ← KBMap.getURI solvedIssue.uri
    let network ← withEmptyList
      (walk (.issue :: callers) (.graph (.network solvedIssue.issue)) this "" conceptsNetworkName)
    let solution ← (do
      let this ← KBMap.getURI solvedIssue.uri
      walkSolution platform kb store walk (.solution :: callers) solvedIssue.solution this ""
        solutionName)
    return network ++ solution)
  return node ++ below

/-- From a resource, with a list buffer. -/
def walkWith (walk : Walker) (callers : List CallSite) (r : SavedResource) (parent : Option ℕ)
    (key linkType : String) : Walk :=
  match r with
  | .graph (.concept c) => walkWithChildren platform kb walk (fun heap => heap.conceptChildren c)
      callers (.concept c) parent key linkType
  | .graph (.phrase p) => walkWithChildren platform kb walk (fun heap => heap.phraseChildren p)
      callers (.phrase p) parent key linkType
  | .graph (.network n) => walkWithChildren platform kb walk (fun heap => heap.networkChildren n)
      callers (.network n) parent key linkType
  | .sentence x => walkNarrated platform kb walk callers (.sentence x) x.uri
      (x.phrases.map fun p =>
        { resource := .graph (.phrase p)
          key := (Heap.child phrasesLinkName (.phrase p)).keyText platform
          linkType := phrasesLinkName }) parent key linkType
  | .narrative n => walkNarrated platform kb walk callers (.narrative n) n.uri
      (n.sentences.map fun x =>
        { resource := .sentence x, key := uriText platform x.uri, linkType := phrasesLinkName })
      parent key linkType
  | .solvedIssue i => walkSolvedIssue platform kb store walk callers i parent key linkType
  | .graph (.link _) | .solution _ | .howTo _ | .frame _ | .plain _ _ =>
      perform kb callers (.saveResource r parent key linkType)

/-- On a stack of the given depth. -/
def walk : ℕ → Walker
  | 0 => fun _ _ _ _ _ => throw .stackOverflowError
  | stack + 1 => walkWith platform kb store (walk stack)

/-- The walk from a resource that is saved by itself. -/
def walkRoot (stack : ℕ) : SavedResource → Option ℕ → String → String → Walk
  | .howTo i => walkHowTo platform kb store (walk platform kb store stack) [] i
  | .solution i => walkSolution platform kb store (walk platform kb store stack) [] i
  | r => walk platform kb store stack [] r

end Walking

/-! ### The operations of a save -/

namespace Walking

/-- An operation, with what the knowledge base answers. -/
def entry (kb : KBService) (op : PlannedOperation) : PerformedOperation :=
  ⟨op.callers, op.operation, (returned ((kb.perform op.operation).run op.before)).getD true⟩

/-- A recorded program, and the walk that lists its operations. -/
abbrev Listed {α : Type} (kb : KBService) (p : SaveProgram α) (q : Walk) : Prop :=
  ListedBy RecordedWorld.toWorld RecordedWorld.log (entry kb) p q

variable {platform : Platform} {kb : KBService} {store : IssueStore} {callers : List CallSite}

/-- An operation that is performed, and noted. -/
theorem listed_perform (operation : KBOperation) {α : Type} (result : Bool → α) :
    Listed kb (do
      let ok ← Reporting.unrecorded (kb.perform operation)
      modify fun s => { s with log := s.log ++ [⟨callers, operation, ok⟩] }
      return result ok) (perform kb callers operation) := by
  intro s
  have walked : (perform kb callers operation).run s.toWorld =
      match (kb.perform operation).run s.toWorld with
      | .ok _ w => .ok [⟨callers, operation, s.toWorld⟩] w
      | .error e w => .error e w := by
    change (kb.perform operation >>= fun _ => _).run s.toWorld = _
    rw [EStateM.run_bind]
    cases (kb.perform operation).run s.toWorld <;> rfl
  have part := Reporting.onPart_unrecorded (kb.perform operation)
  rw [walked, EStateM.run_bind]
  cases run : (kb.perform operation).run s.toWorld with
  | error e w => exact ⟨_, by rw [part.run_of_error run]⟩
  | ok ok w =>
    rw [part.run_of_ok run]
    refine ⟨result ok, _, rfl, rfl, ?_⟩
    have answered : entry kb ⟨callers, operation, s.toWorld⟩ = ⟨callers, operation, ok⟩ := by
      rw [entry, run]
      rfl
    rw [List.map_singleton, answered]

theorem listed_saveResource (child : SavedResource) (parent : Option ℕ) (key linkType : String) :
    Listed kb (Reporting.saveResource kb callers child parent key linkType)
      (perform kb callers (.saveResource child parent key linkType)) :=
  listed_perform (.saveResource child parent key linkType) id

theorem listed_createLink (parent child : Option ℕ) (linkType key : String) :
    Listed kb (Reporting.createLink kb callers parent child linkType key)
      (perform kb callers (.createLink parent child linkType key)) :=
  listed_perform (.createLink parent child linkType key) fun _ => PUnit.unit

/-- What performs no operation is done by both. -/
theorem listed_unrecorded_bind {α β : Type} (p : KBProgram α) {f : α → SaveProgram β} {g : α → Walk}
    (rest : ∀ a, Listed kb (f a) (g a)) :
    Listed kb (Reporting.unrecorded p >>= f) (p >>= g) :=
  .bind_part (Reporting.onPart_unrecorded p) (fun _ _ => rfl) (fun _ _ => rfl) rest

/-- A resource that has been saved is linked by both, and nothing else is done. -/
theorem listed_checkIfSaved_bind {α : Type} {parent refObject : Option ℕ}
    {key linkType uid : String} {f : Bool → SaveProgram α} {a : α} {walk : Walk}
    (known : f true = pure a)
    (rest : Listed kb (f false) walk) :
    Listed kb (Reporting.checkIfSaved kb callers parent key linkType refObject uid >>= f) (do
      if ← metBefore uid then perform kb callers (.createLink parent refObject linkType key)
      else walk) := by
  unfold Reporting.checkIfSaved metBefore
  by_cases empty : uid = ""
  · simpa [empty] using rest
  · simp only [if_neg empty, bind_assoc]
    refine ListedBy.get_bind fun s => ?_
    split
    · simp only [bind_assoc, pure_bind, known, if_true]
      exact (listed_createLink _ _ _ _).bind_pure fun _ => a
    · simp only [bind_assoc, pure_bind, Bool.false_eq_true, if_false]
      refine ListedBy.modify_bind ?_ ?_ rest
      all_goals exact fun _ => rfl

section Calls

variable {save : Reporting.Saver} {walk : Walker}

/-- The walk lists what a `save` method performs. -/
abbrev ListedSaver (kb : KBService) (save : Reporting.Saver) (walk : Walker) : Prop :=
  ∀ callers r parent key linkType,
    Listed kb (save callers r parent key linkType) (walk callers r parent key linkType)

variable (listed : ListedSaver kb save walk)

include listed

theorem listed_saveInto (site : CallSite) (convert : KBProgram (Option ℕ)) (res : Bool)
    (call : Reporting.Call) : Listed kb (Reporting.saveInto save callers site convert res call)
      (walkInto walk callers site convert call) := by
  refine listed_unrecorded_bind _ fun this => listed_unrecorded_bind _ fun key => ?_
  exact (listed _ _ _ _ _).bind_pure fun ok => res && ok

theorem listed_saveWithChildren (children : Heap → List Child) (this : ResourceRef)
    (parent : Option ℕ) (key linkType : String) :
    Listed kb
      (Reporting.saveWithChildren platform kb save children callers this parent key linkType)
      (walkWithChildren platform kb walk children callers this parent key linkType) := by
  refine listed_unrecorded_bind _ fun refObject => ListedBy.get_bind fun s => ?_
  refine listed_checkIfSaved_bind rfl ?_
  refine (listed_saveResource _ _ _ _).bind fun res => ?_
  refine listed_unrecorded_bind _ fun _ => ListedBy.get_bind fun s => ?_
  exact ListedBy.foldlM _ (fun res call _ => listed_saveInto listed _ _ res call) res

theorem listed_saveNarrated (this : SavedResource) (u : UriRef) (calls : List Reporting.Call)
    (parent : Option ℕ) (key linkType : String) :
    Listed kb (Reporting.saveNarrated platform kb save callers this u calls parent key linkType)
      (walkNarrated platform kb walk callers this u calls parent key linkType) := by
  refine listed_unrecorded_bind _ fun uri => ListedBy.get_bind fun s => ?_
  split
  · refine listed_unrecorded_bind _ fun child => ?_
    exact (listed_createLink _ _ _ _).bind_pure fun _ => true
  · refine ListedBy.modify_bind ?_ ?_ ?_
    · exact fun _ => rfl
    · exact fun _ => rfl
    refine (listed_saveResource _ _ _ _).bind fun res => ?_
    exact ListedBy.foldlM _ (fun res call _ => listed_saveInto listed _ _ res call) res

omit listed in
theorem listed_withEmptyList {p : SaveProgram Bool} {q : Walk} (part : Listed kb p q) :
    Listed kb (Reporting.withEmptyList p) (withEmptyList q) := by
  refine ListedBy.get_bind fun s => ListedBy.modify_bind ?_ ?_ (part.bind_modify ?_ ?_)
  all_goals exact fun _ => rfl

theorem listed_saveHowTo (i : ℕ) (parent : Option ℕ) (key linkType : String) :
    Listed kb (Reporting.HowTo.save platform kb store save callers i parent key linkType)
      (walkHowTo platform kb store walk callers i parent key linkType) := by
  refine (listed_saveResource _ _ _ _).bind fun res => ListedBy.foldlM _ (fun res x _ => ?_) res
  refine listed_unrecorded_bind _ fun this => listed_unrecorded_bind _ fun key => ?_
  refine (listed_saveResource _ _ _ _).bind fun ok => ListedBy.bind_pure ?_ fun _ => res && ok
  refine ListedBy.forM _ fun entry _ => ?_
  refine listed_unrecorded_bind _ fun x => listed_unrecorded_bind _ fun key => ?_
  exact (listed_withEmptyList (listed _ _ _ _ _)).bind_pure fun _ => PUnit.unit

theorem listed_saveSolution (i : ℕ) (parent : Option ℕ) (key linkType : String) :
    Listed kb (Reporting.Solution.save platform kb store save callers i parent key linkType)
      (walkSolution platform kb store walk callers i parent key linkType) := by
  refine (listed_saveResource _ _ _ _).bind fun res => ListedBy.foldlM _ (fun res x _ => ?_) res
  refine listed_unrecorded_bind _ fun this => listed_unrecorded_bind _ fun key => ?_
  exact (listed_saveHowTo listed x this key defaultLinkName).bind_pure fun ok => res && ok

theorem listed_saveSolvedIssue (i : ℕ) (parent : Option ℕ) (key linkType : String) :
    Listed kb (Reporting.SolvedIssue.save platform kb store save callers i parent key linkType)
      (walkSolvedIssue platform kb store walk callers i parent key linkType) := by
  refine (listed_saveResource _ _ _ _).bind fun _ => listed_unrecorded_bind _ fun this => ?_
  refine (listed_withEmptyList (listed _ _ _ _ _)).bind fun _ => ?_
  refine listed_unrecorded_bind _ fun this => ?_
  exact listed_saveSolution listed _ _ _ _

theorem listed_saveWith : ListedSaver kb (Reporting.saveWith platform kb store save)
    (walkWith platform kb store walk) := by
  intro callers r parent key linkType
  unfold Reporting.saveWith walkWith
  split
  · exact listed_saveWithChildren listed _ _ _ _ _
  · exact listed_saveWithChildren listed _ _ _ _ _
  · exact listed_saveWithChildren listed _ _ _ _ _
  · exact listed_saveNarrated listed _ _ _ _ _ _
  · exact listed_saveNarrated listed _ _ _ _ _ _
  · exact listed_saveSolvedIssue listed _ _ _ _
  all_goals exact listed_saveResource _ _ _ _

end Calls

variable (platform kb store) in
/-- A save performs the operations of the walk. -/
theorem listed_save (stack : ℕ) : ListedSaver kb (Reporting.save platform kb store stack)
    (walk platform kb store stack) := by
  induction stack with
  | zero => exact fun _ _ _ _ _ => .throw _
  | succ stack ih => exact listed_saveWith ih

variable (platform kb store) in
theorem listed_saveRoot (stack : ℕ) (r : SavedResource) (parent : Option ℕ)
    (key linkType : String) :
    Listed kb (Reporting.saveRoot platform kb store stack r parent key linkType)
      (walkRoot platform kb store stack r parent key linkType) := by
  have listed := listed_save platform kb store stack
  cases r with
  | howTo i => exact listed_saveHowTo listed i parent key linkType
  | solution i => exact listed_saveSolution listed i parent key linkType
  | _ => exact listed [] _ parent key linkType

end Walking

/-- Where the walk ends, the knowledge base refuses an operation whose result is thrown away only
along with one whose result is not. -/
def FailsVisibly (kb : KBService) : EStateM.Result KBFailure World (List PlannedOperation) → Prop
  | .ok items _ => (∃ op ∈ items, op.Dropped ∧ kb.Refuses op.before op.operation) →
      ∃ op ∈ items, ¬ op.Dropped ∧ kb.Refuses op.before op.operation
  | .error _ _ => True

theorem KBService.refuses_iff (kb : KBService) (op : PlannedOperation) :
    kb.Refuses op.before op.operation ↔ (Walking.entry kb op).ok = false := by
  change returned _ = some false ↔ (returned _).getD true = false
  cases returned ((kb.perform op.operation).run op.before) <;> simp

/-- A save reports failure exactly when, among the operations that the walk of the graph lists, one
whose result is thrown away is refused only along with one whose result is not: for every graph of
resources, every knowledge base and every pattern of refused operations. -/
theorem reportsFailure_iff (platform : Platform) (kb : KBService) (store : IssueStore)
    (stack : ℕ) (w : World) (r : SavedResource) (parent : Option ℕ) (key linkType : String) :
    ReportsFailure (Reporting.recordedSave platform kb store stack w r parent key linkType) ↔
      FailsVisibly kb ((Walking.walkRoot platform kb store stack r parent key linkType).run w) := by
  have listed := Walking.listed_saveRoot platform kb store stack r parent key linkType
  let start : RecordedWorld := { w with log := [] }
  cases walked : (Walking.walkRoot platform kb store stack r parent key linkType).run w with
  | error e _ =>
    obtain ⟨t, raised⟩ := listed.run_eq_error (s := start) walked
    rw [Reporting.recordedSave, raised]
    exact Iff.rfl
  | ok items _ =>
    obtain ⟨res, t, run, -, logged⟩ := listed.run_eq_ok (s := start) walked
    have same : t.log = items.map (Walking.entry kb) := logged
    rw [Reporting.recordedSave, run, reportsFailure_iff_of_run run, same]
    simp only [FailsVisibly, KBService.refuses_iff, List.mem_map, exists_exists_and_eq_and]
    exact Iff.rfl

end ThinkingUnderstanding
