import ThinkingUnderstanding.Persistence.Narratives
import ThinkingUnderstanding.Semantics.Gathering
import ThinkingUnderstanding.Semantics.PartOfState

/-!
# What a save reports

A `save` method returns a truth value, which it gathers from the results of what it calls: of
`KB.saveResource` for itself, and of `save` for what it is made of. Here the methods are
modelled with these results, over any implementation of the trait `KB`. Every
operation of the knowledge base is noted, with its result and with the chain of
calls of `save` it is made in.

Three results are thrown away. `ModelHelper.checkIfSaved` makes a link and returns `true`
whatever became of it. `SolvedIssue.save` returns the result for the solution, and drops that of its
own node and that for the issue. `HowTo.save` drops what the resources of a frame return.

## Main definitions

* `KBService` — the trait `KB`, as far as resources are saved with it
* `SavedResource`, `IssueStore` — the resources and what they are made of
* `Reporting.save` — the `save` methods
* `PerformedOperation.Dropped` — the operations whose results are thrown away
* `ReportsFailure` — a save returns `true` only if every operation has

## Main results

* `Reporting.gathers_save` — a save gathers its result from the other operations
* `reportsFailure_iff_of_run` — when a save that returns has reported failure
-/

namespace ThinkingUnderstanding

open Math Semantics

/-- `Constant.CONCEPTS_NETWORK_NAME`. -/
def conceptsNetworkName : String := "conceptNetwork"

/-- `Constant.SOLUTION_NAME`. -/
def solutionName : String := "solution"

/-- The identity of a resource. -/
inductive SavedResource
  | graph (r : ResourceRef)
  | sentence (x : AnnotatedSentence)
  | narrative (n : AnnotatedNarrative)
  | solvedIssue (i : ℕ)
  | solution (i : ℕ)
  | howTo (i : ℕ)
  | frame (i : ℕ)
  /-- A resource of one of the classes that inherit `save`, with what it exports. -/
  | plain (u : UriRef) (properties : Properties)

/-- `SolvedIssue`. -/
structure StoredIssue where
  issue : NetworkRef
  solution : ℕ
  uri : UriRef
  probability : Probability := {}

/-- `Solution`. -/
structure Solution where
  resources : List ℕ
  uri : UriRef
  probability : Probability := {}

/-- `HowTo`. -/
structure HowTo where
  parameters : List ℕ
  uri : UriRef
  probability : Probability := {}

/-- `Frame`. -/
structure Frame where
  resources : InsertionMap UriRef SavedResource := .empty
  uri : UriRef
  probability : Probability := {}

/-- The objects with which issues are stored. -/
structure IssueStore where
  solvedIssue : ℕ → StoredIssue
  solution : ℕ → Solution
  howTo : ℕ → HowTo
  frame : ℕ → Frame

/-- `Resource.uri`, as the identity of the URI object. -/
def IssueStore.uriRef (store : IssueStore) (heap : Heap) : SavedResource → UriRef
  | .graph r => heap.uriRef r
  | .sentence x => x.uri
  | .narrative n => n.uri
  | .solvedIssue i => (store.solvedIssue i).uri
  | .solution i => (store.solution i).uri
  | .howTo i => (store.howTo i).uri
  | .frame i => (store.frame i).uri
  | .plain u _ => u

/-- The trait `KB`, as far as resources are saved with it. -/
structure KBService where
  saveResource : SavedResource → Option ℕ → String → String → KBProgram Bool
  createLink : Option ℕ → Option ℕ → String → String → KBProgram Bool

/-- The statements in which one `save` calls another. -/
inductive CallSite
  /-- The loops over what a concept, a phrase, a network, a sentence or a narrative refers to. -/
  | child
  /-- `issue.save` in `SolvedIssue.save`. -/
  | issue
  /-- `solution.save` in `SolvedIssue.save`. -/
  | solution
  /-- The loop of `Solution.save`. -/
  | howTo
  /-- The outer loop of `HowTo.save`. -/
  | frame
  /-- The inner loop of `HowTo.save`. -/
  | frameResource
  deriving DecidableEq

/-- An operation of the knowledge base. -/
inductive KBOperation
  | saveResource (child : SavedResource) (parent : Option ℕ) (key linkType : String)
  | createLink (parent child : Option ℕ) (linkType key : String)

/-- An operation that has been performed: where, innermost call first, and with what result. -/
structure PerformedOperation where
  callers : List CallSite
  operation : KBOperation
  ok : Bool

/-- The state of a process, with the operations of the knowledge base it has performed. -/
structure RecordedWorld extends World where
  log : List PerformedOperation := []

/-- A `save` method that is recorded. -/
abbrev SaveProgram (α : Type) := EStateM KBFailure RecordedWorld α

namespace Reporting

/-- A method that performs no operation of the knowledge base. -/
def unrecorded {α : Type} (p : KBProgram α) : SaveProgram α := fun s =>
  match p.run s.toWorld with
  | .ok a w => .ok a { s with toWorld := w }
  | .error e w => .error e { s with toWorld := w }

theorem onPart_unrecorded {α : Type} (p : KBProgram α) :
    OnPart RecordedWorld.toWorld (fun s w => { s with toWorld := w }) (unrecorded p) p where
  run_of_ok {s a t} run := by
    change unrecorded _ s = _
    rw [unrecorded, run]
  run_of_error {s e t} run := by
    change unrecorded _ s = _
    rw [unrecorded, run]

variable (platform : Platform) (kb : KBService) (store : IssueStore)

/-- `kb.saveResource`. -/
def saveResource (callers : List CallSite) (child : SavedResource) (parent : Option ℕ)
    (key linkType : String) : SaveProgram Bool := do
  let ok ← unrecorded (kb.saveResource child parent key linkType)
  modify fun s => { s with
    log := s.log ++ [⟨callers, .saveResource child parent key linkType, ok⟩] }
  return ok

/-- `kb.createLink`, whose result type in the trait is `Unit`. -/
def createLink (callers : List CallSite) (parent child : Option ℕ) (linkType key : String) :
    SaveProgram Unit := do
  let ok ← unrecorded (kb.createLink parent child linkType key)
  modify fun s => { s with log := s.log ++ [⟨callers, .createLink parent child linkType key, ok⟩] }

/-- `ModelHelper.checkIfSaved`. -/
def checkIfSaved (callers : List CallSite) (parent : Option ℕ) (key linkType : String)
    (refObject : Option ℕ) (uid : String) : SaveProgram Bool := do
  if uid = "" then return false
  if uid ∈ (← get).saved then
    createLink kb callers parent refObject linkType key
    return true
  modify fun s => { s with saved := s.saved ++ [uid] }
  return false

/-- A `save` method: chain of calls, resource, parent, key and type of the link. -/
abbrev Saver := List CallSite → SavedResource → Option ℕ → String → String → SaveProgram Bool

/-- A call of `save` in a loop. -/
structure Call where
  resource : SavedResource
  key : KBProgram String
  linkType : String

/-- `res &= x.save(kb, this, key, linkType, saved)`, where `this` is converted to a number. -/
def saveInto (save : Saver) (callers : List CallSite) (site : CallSite)
    (convert : KBProgram (Option ℕ)) (res : Bool) (call : Call) : SaveProgram Bool := do
  let this ← unrecorded convert
  let key ← unrecorded call.key
  let ok ← save (site :: callers) call.resource this key call.linkType
  return res && ok

/-- What the `save` methods of concepts, phrases and networks have in common. -/
def saveWithChildren (save : Saver) (children : Heap → List Child) (callers : List CallSite)
    (this : ResourceRef) (parent : Option ℕ) (key linkType : String) : SaveProgram Bool := do
  let refObject ← unrecorded (KBMap.get this)
  if ← checkIfSaved kb callers parent key linkType refObject ((← get).heap.uid this) then
    return true
  let res ← saveResource kb callers (.graph this) parent key linkType
  unrecorded (appendToSave this)
  let heap := (← get).heap
  let calls := (children heap).map fun child =>
    { resource := .graph child.resource, key := child.keyText platform, linkType := child.linkType }
  calls.foldlM (saveInto save callers .child (KBMap.get this)) res

/-- `Concept.save`. -/
def Concept.save (save : Saver) (callers : List CallSite) (c : ConceptRef) :
    Option ℕ → String → String → SaveProgram Bool :=
  saveWithChildren platform kb save (fun heap => heap.conceptChildren c) callers (.concept c)

/-- `AnnotatedPhrase.save`. -/
def AnnotatedPhrase.save (save : Saver) (callers : List CallSite) (p : PhraseRef) :
    Option ℕ → String → String → SaveProgram Bool :=
  saveWithChildren platform kb save (fun heap => heap.phraseChildren p) callers (.phrase p)

/-- `ConceptNetwork.save`. -/
def ConceptNetwork.save (save : Saver) (callers : List CallSite) (n : NetworkRef) :
    Option ℕ → String → String → SaveProgram Bool :=
  saveWithChildren platform kb save (fun heap => heap.networkChildren n) callers (.network n)

/-- What the `save` methods of sentences and narratives have in common. -/
def saveNarrated (save : Saver) (callers : List CallSite) (this : SavedResource) (u : UriRef)
    (calls : List Call) (parent : Option ℕ) (key linkType : String) : SaveProgram Bool := do
  let uri ← unrecorded (uriText platform u)
  if uri ∈ (← get).saved then
    let child ← unrecorded (KBMap.getURI u)
    createLink kb callers parent child linkType key
    return true
  modify fun s => { s with saved := s.saved ++ [uri] }
  let res ← saveResource kb callers this parent key linkType
  calls.foldlM (saveInto save callers .child (KBMap.getURI u)) res

/-- `AnnotatedSentence.save`. -/
def AnnotatedSentence.save (save : Saver) (callers : List CallSite) (x : AnnotatedSentence) :
    Option ℕ → String → String → SaveProgram Bool :=
  saveNarrated platform kb save callers (.sentence x) x.uri
    (x.phrases.map fun p =>
      { resource := .graph (.phrase p)
        key := (Heap.child phrasesLinkName (.phrase p)).keyText platform
        linkType := phrasesLinkName })

/-- `AnnotatedNarrative.save`. -/
def AnnotatedNarrative.save (save : Saver) (callers : List CallSite) (n : AnnotatedNarrative) :
    Option ℕ → String → String → SaveProgram Bool :=
  saveNarrated platform kb save callers (.narrative n) n.uri
    (n.sentences.map fun x =>
      { resource := .sentence x, key := uriText platform x.uri, linkType := phrasesLinkName })

/-- A call of `save` with the default value of its last parameter, an empty list buffer. -/
def withEmptyList (p : SaveProgram Bool) : SaveProgram Bool := do
  let saved := (← get).saved
  modify fun s => { s with saved := [] }
  let ok ← p
  modify fun s => { s with saved := saved }
  return ok

/-- `HowTo.save`. -/
def HowTo.save (save : Saver) (callers : List CallSite) (i : ℕ) (parent : Option ℕ)
    (key linkType : String) : SaveProgram Bool := do
  let howTo := store.howTo i
  let res ← saveResource kb callers (.howTo i) parent key linkType
  howTo.parameters.foldlM (fun res x => do
    let frame := store.frame x
    let this ← unrecorded (KBMap.getURI howTo.uri)
    let key ← unrecorded (uriText platform frame.uri)
    -- `Frame` inherits `Resource.save`
    let ok ← saveResource kb (.frame :: callers) (.frame x) this key defaultLinkName
    frame.resources.entries.forM fun (k, y) => do
      let x ← unrecorded (KBMap.getURI frame.uri)
      let key ← unrecorded (uriText platform k)
      let _ok ← withEmptyList (save (.frameResource :: callers) y x key defaultLinkName)
    return res && ok) res

/-- `Solution.save`. -/
def Solution.save (save : Saver) (callers : List CallSite) (i : ℕ) (parent : Option ℕ)
    (key linkType : String) : SaveProgram Bool := do
  let solution := store.solution i
  let res ← saveResource kb callers (.solution i) parent key linkType
  solution.resources.foldlM (fun res x => do
    let this ← unrecorded (KBMap.getURI solution.uri)
    let key ← unrecorded (uriText platform (store.howTo x).uri)
    let ok ← HowTo.save platform kb store save (.howTo :: callers) x this key defaultLinkName
    return res && ok) res

/-- `SolvedIssue.save`. -/
def SolvedIssue.save (save : Saver) (callers : List CallSite) (i : ℕ) (parent : Option ℕ)
    (key linkType : String) : SaveProgram Bool := do
  let solvedIssue := store.solvedIssue i
  let _res ← saveResource kb callers (.solvedIssue i) parent key linkType
  let this ← unrecorded (KBMap.getURI solvedIssue.uri)
  let _ok ← withEmptyList
    (save (.issue :: callers) (.graph (.network solvedIssue.issue)) this "" conceptsNetworkName)
  let this ← unrecorded (KBMap.getURI solvedIssue.uri)
  Solution.save platform kb store save (.solution :: callers) solvedIssue.solution this ""
    solutionName

/-- The `save` method with a list buffer, calling `save` for what the resource is made of.
`HowTo` and `Solution` inherit it from `Resource`; their own `save` has no list buffer. -/
def saveWith (save : Saver) (callers : List CallSite) (r : SavedResource) :
    Option ℕ → String → String → SaveProgram Bool :=
  match r with
  | .graph (.concept c) => Concept.save platform kb save callers c
  | .graph (.phrase p) => AnnotatedPhrase.save platform kb save callers p
  | .graph (.network n) => ConceptNetwork.save platform kb save callers n
  | .sentence x => AnnotatedSentence.save platform kb save callers x
  | .narrative n => AnnotatedNarrative.save platform kb save callers n
  | .solvedIssue i => SolvedIssue.save platform kb store save callers i
  | .graph (.link _) | .solution _ | .howTo _ | .frame _ | .plain _ _ => saveResource kb callers r

/-- The `save` method with a list buffer, on a stack of the given depth. -/
def save : ℕ → Saver
  | 0 => fun _ _ _ _ _ => throw .stackOverflowError
  | stack + 1 => saveWith platform kb store (save stack)

/-- The `save` that is called for a resource by itself. -/
def saveRoot (stack : ℕ) : SavedResource → Option ℕ → String → String → SaveProgram Bool
  | .howTo i => HowTo.save platform kb store (save platform kb store stack) [] i
  | .solution i => Solution.save platform kb store (save platform kb store stack) [] i
  | r => save platform kb store stack [] r

end Reporting

/-- The calls of `save` whose results are looked at. -/
def CallSite.Heeded : CallSite → Prop
  | issue | frameResource => False
  | child | solution | howTo | frame => True

/-- The operations whose results are thrown away where they are performed. -/
def KBOperation.Unheeded : KBOperation → Prop
  | createLink _ _ _ _ => True
  | saveResource (.solvedIssue _) _ _ _ => True
  | saveResource _ _ _ _ => False

/-- The result of the operation, or that of a call it is made in, is thrown away. -/
def PerformedOperation.Dropped (op : PerformedOperation) : Prop :=
  op.operation.Unheeded ∨ ∃ site ∈ op.callers, ¬ site.Heeded

namespace Reporting

/-- The result of a call of `save` within the given ones is gathered from the operations that are
not dropped. -/
def Gathering (callers : List CallSite) : Bool → RecordedWorld → Bool → RecordedWorld → Prop :=
  Gathers RecordedWorld.log (fun op => callers <:+ op.callers) (fun op => op.Dropped ∨ op.ok = true)
    (∀ site ∈ callers, site.Heeded)

variable {platform : Platform} {kb : KBService} {store : IssueStore} {callers : List CallSite}
  {site : CallSite} {given : Bool}

theorem log_unrecorded {α : Type} {p : KBProgram α} {s t : RecordedWorld} {a : α}
    (run : (unrecorded p).run s = .ok a t) : t.log = s.log := by
  obtain ⟨w, -, rfl⟩ := (onPart_unrecorded p).run_eq_ok_iff.mp run
  rfl

theorem ensures_unrecorded {α : Type} (p : KBProgram α) :
    Ensures (unrecorded p) fun s _ t => t.log = s.log :=
  fun _ _ _ run => log_unrecorded run

/-- A node that is stored for anything but a solved issue. -/
theorem gathers_saveResource {child : SavedResource} {parent : Option ℕ} {key linkType : String}
    (heeded : ¬ (KBOperation.saveResource child parent key linkType).Unheeded) :
    Ensures (saveResource kb callers child parent key linkType) (Gathering callers true) := by
  intro s ok t run
  obtain ⟨ok, m, quiet, run⟩ := run_bind_eq_ok_iff.mp run
  cases run
  refine ⟨[⟨callers, .saveResource child parent key linkType, ok⟩], ?_, ?_, fun heeds => ?_⟩
  · exact congrArg (· ++ _) (log_unrecorded quiet)
  · exact List.forall_mem_singleton.mpr List.suffix_rfl
  · have kept : ¬ PerformedOperation.Dropped
        ⟨callers, .saveResource child parent key linkType, ok⟩ := by
      rintro (unheeded | ⟨site, member, unheeded⟩)
      · exact heeded unheeded
      · exact unheeded (heeds site member)
    rw [List.forall_mem_singleton, or_iff_right kept, eq_self_iff_true, true_and]

/-- An operation whose result is thrown away is noted. -/
theorem gathering_of_unheeded {s m : RecordedWorld} (quiet : m.log = s.log)
    (operation : KBOperation) (unheeded : operation.Unheeded) (ok : Bool) :
    Gathering callers given s given { m with log := m.log ++ [⟨callers, operation, ok⟩] } := by
  have dropped : PerformedOperation.Dropped ⟨callers, operation, ok⟩ := Or.inl unheeded
  refine ⟨[⟨callers, operation, ok⟩], congrArg (· ++ _) quiet, ?_, fun _ => ?_⟩
  · exact List.forall_mem_singleton.mpr List.suffix_rfl
  · rw [List.forall_mem_singleton, or_iff_left_of_imp fun _ => dropped]
    exact (and_iff_left dropped).symm

/-- A node that is stored for a solved issue. -/
theorem gathers_saveResource_solvedIssue {i : ℕ} {parent : Option ℕ} {key linkType : String} :
    Ensures (saveResource kb callers (.solvedIssue i) parent key linkType) fun s _ t =>
      Gathering callers given s given t := by
  intro s ok t run
  obtain ⟨ok, m, quiet, run⟩ := run_bind_eq_ok_iff.mp run
  cases run
  exact gathering_of_unheeded (log_unrecorded quiet)
    (.saveResource (.solvedIssue i) parent key linkType) trivial ok

theorem gathers_createLink {parent child : Option ℕ} {key linkType : String} :
    Ensures (createLink kb callers parent child linkType key) fun s _ t =>
      Gathering callers given s given t := by
  intro s _ t run
  obtain ⟨ok, m, quiet, run⟩ := run_bind_eq_ok_iff.mp run
  cases run
  exact gathering_of_unheeded (log_unrecorded quiet) (.createLink parent child linkType key)
    trivial ok

/-- Whether a resource has been saved says nothing about what became of the link. -/
theorem gathers_checkIfSaved {parent refObject : Option ℕ} {key linkType uid : String} :
    Ensures (checkIfSaved kb callers parent key linkType refObject uid) fun s _ t =>
      Gathering callers given s given t := by
  intro s known t run
  unfold checkIfSaved at run
  split at run
  · cases run
    exact .of_log_eq rfl given
  · obtain ⟨_, _, read, run⟩ := run_bind_eq_ok_iff.mp run
    cases read
    split at run
    · obtain ⟨_, m, linked, run⟩ := run_bind_eq_ok_iff.mp run
      cases run
      exact gathers_createLink s _ t linked
    · cases run
      exact .of_log_eq rfl given

section Calls

variable {save : Saver}

/-- The result of a call is gathered into what was given. -/
theorem gathers_nested (site : CallSite) (heeded : site.Heeded) {s t : RecordedWorld} {res : Bool}
    (part : Gathering (site :: callers) true s res t) (given : Bool) :
    Gathering callers given s (given && res) t :=
  (part.and given).mono (fun _ => List.IsSuffix.trans (List.suffix_cons site callers))
    fun heeds => List.forall_mem_cons.mpr ⟨heeded, heeds⟩

theorem gathers_saveInto (saves : ∀ callers r parent key linkType,
      Ensures (save callers r parent key linkType) (Gathering callers true))
    (site : CallSite) (heeded : site.Heeded) (convert : KBProgram (Option ℕ)) (call : Call) :
    Ensures (saveInto save callers site convert given call) (Gathering callers given) := by
  refine gathers_bind_of_log_eq (ensures_unrecorded _) fun this => ?_
  refine gathers_bind_of_log_eq (ensures_unrecorded _) fun key => ?_
  intro s res t run
  obtain ⟨ok, m, ran, run⟩ := run_bind_eq_ok_iff.mp run
  cases run
  exact gathers_nested site heeded (saves _ _ _ _ _ s ok t ran) given

/-- A call whose result is thrown away leaves what was given as it is. -/
theorem gathers_unheeded {s t : RecordedWorld} {res : Bool} (unheeded : ¬ site.Heeded)
    (part : Gathering (site :: callers) true s res t) : Gathering callers given s given t := by
  refine (part.discard (fun op within => ?_) given).mono
    (fun op => List.IsSuffix.trans (List.suffix_cons site callers)) id
  exact Or.inl (Or.inr ⟨site, within.subset List.mem_cons_self, unheeded⟩)

/-- A list buffer of its own says nothing about the results. -/
theorem gathers_withEmptyList {p : SaveProgram Bool} (part : Ensures p (Gathering callers true)) :
    Ensures (withEmptyList p) (Gathering callers true) := by
  intro s res t run
  obtain ⟨_, _, read, run⟩ := run_bind_eq_ok_iff.mp run
  cases read
  obtain ⟨_, _, emptied, run⟩ := run_bind_eq_ok_iff.mp run
  cases emptied
  obtain ⟨ok, m, ran, run⟩ := run_bind_eq_ok_iff.mp run
  cases run
  have ended := part _ _ _ ran
  exact ended

variable (saves : ∀ callers r parent key linkType,
  Ensures (save callers r parent key linkType) (Gathering callers true))

include saves

theorem gathers_saveWithChildren {children : Heap → List Child} {this : ResourceRef}
    {parent : Option ℕ} {key linkType : String} :
    Ensures (saveWithChildren platform kb save children callers this parent key linkType)
      (Gathering callers true) := by
  refine gathers_bind_of_log_eq (ensures_unrecorded _) fun refObject => ?_
  refine gathers_bind_of_log_eq (fun s _ t run => by cases run; rfl) fun heap => ?_
  refine gathers_bind_keep gathers_checkIfSaved fun known => ?_
  cases known with
  | true => exact fun s res t run => by cases run; exact .of_log_eq rfl true
  | false =>
    refine gathers_bind (gathers_saveResource id) fun res => ?_
    refine gathers_bind_of_log_eq (ensures_unrecorded _) fun _ => ?_
    refine gathers_bind_of_log_eq (fun s _ t run => by cases run; rfl) fun heap => ?_
    exact gathers_foldlM _ (fun call _ given => gathers_saveInto saves .child trivial _ call) res

theorem gathers_saveNarrated {this : SavedResource} {u : UriRef} {calls : List Call}
    {parent : Option ℕ} {key linkType : String}
    (heeded : ¬ (KBOperation.saveResource this parent key linkType).Unheeded) :
    Ensures (saveNarrated platform kb save callers this u calls parent key linkType)
      (Gathering callers true) := by
  refine gathers_bind_of_log_eq (ensures_unrecorded _) fun uri => ?_
  refine gathers_bind_of_log_eq (fun s _ t run => by cases run; rfl) fun s => ?_
  split
  · refine gathers_bind_of_log_eq (ensures_unrecorded _) fun child => ?_
    refine gathers_bind_keep gathers_createLink fun _ => ?_
    exact fun s res t run => by cases run; exact .of_log_eq rfl true
  · refine gathers_bind_of_log_eq (fun s _ t run => by cases run; rfl) fun _ => ?_
    refine gathers_bind (gathers_saveResource heeded) fun res => ?_
    exact gathers_foldlM _ (fun call _ given => gathers_saveInto saves .child trivial _ call) res

/-- What the resources of a frame return is thrown away. -/
theorem gathers_frameResource (u u' : UriRef) (y : SavedResource) :
    Ensures (do
      let x ← unrecorded (KBMap.getURI u)
      let key ← unrecorded (uriText platform u')
      let _ok ← withEmptyList (save (.frameResource :: callers) y x key defaultLinkName) :
        SaveProgram PUnit)
      fun s _ t => Gathering callers given s given t := by
  intro s _ t run
  obtain ⟨x, m, converted, run⟩ := run_bind_eq_ok_iff.mp run
  obtain ⟨key, n, asked, run⟩ := run_bind_eq_ok_iff.mp run
  obtain ⟨ok, _, saved, run⟩ := run_bind_eq_ok_iff.mp run
  cases run
  have quiet : n.log = s.log := (log_unrecorded asked).trans (log_unrecorded converted)
  have part := gathers_withEmptyList (saves (.frameResource :: callers) y x key defaultLinkName)
    n ok t saved
  exact (Gathers.of_log_eq quiet given).trans (gathers_unheeded id part)

theorem gathers_saveHowTo {i : ℕ} {parent : Option ℕ} {key linkType : String} :
    Ensures (HowTo.save platform kb store save callers i parent key linkType)
      (Gathering callers true) := by
  refine gathers_bind (gathers_saveResource id) fun res => ?_
  refine gathers_foldlM _ (fun x _ given => ?_) res
  refine gathers_bind_of_log_eq (ensures_unrecorded _) fun this => ?_
  refine gathers_bind_of_log_eq (ensures_unrecorded _) fun key => ?_
  intro s res t run
  obtain ⟨ok, m, frame, run⟩ := run_bind_eq_ok_iff.mp run
  obtain ⟨_, n, resources, run⟩ := run_bind_eq_ok_iff.mp run
  cases run
  have stored := gathers_nested .frame trivial (gathers_saveResource id s ok m frame) given
  exact stored.trans (gathers_forM_keep _
    (fun entry _ => gathers_frameResource saves _ entry.1 entry.2) m _ t resources)

theorem gathers_saveSolution {i : ℕ} {parent : Option ℕ} {key linkType : String} :
    Ensures (Solution.save platform kb store save callers i parent key linkType)
      (Gathering callers true) := by
  refine gathers_bind (gathers_saveResource id) fun res => ?_
  refine gathers_foldlM _ (fun x _ given => ?_) res
  refine gathers_bind_of_log_eq (ensures_unrecorded _) fun this => ?_
  refine gathers_bind_of_log_eq (ensures_unrecorded _) fun key => ?_
  intro s res t run
  obtain ⟨ok, m, ran, run⟩ := run_bind_eq_ok_iff.mp run
  cases run
  exact gathers_nested .howTo trivial (gathers_saveHowTo saves s ok t ran) given

theorem gathers_saveSolvedIssue {i : ℕ} {parent : Option ℕ} {key linkType : String} :
    Ensures (SolvedIssue.save platform kb store save callers i parent key linkType)
      (Gathering callers true) := by
  refine gathers_bind_keep gathers_saveResource_solvedIssue fun _ => ?_
  refine gathers_bind_of_log_eq (ensures_unrecorded _) fun this => ?_
  refine gathers_bind_keep (fun s res t run => gathers_unheeded id
    (gathers_withEmptyList (saves _ _ this _ _) s res t run)) fun _ => ?_
  refine gathers_bind_of_log_eq (ensures_unrecorded _) fun this => ?_
  intro s res t run
  exact gathers_nested .solution trivial (gathers_saveSolution saves s res t run) true

theorem gathers_saveWith (r : SavedResource) (parent : Option ℕ) (key linkType : String) :
    Ensures (saveWith platform kb store save callers r parent key linkType)
      (Gathering callers true) := by
  unfold saveWith
  split
  · exact gathers_saveWithChildren saves
  · exact gathers_saveWithChildren saves
  · exact gathers_saveWithChildren saves
  · exact gathers_saveNarrated saves id
  · exact gathers_saveNarrated saves id
  · exact gathers_saveSolvedIssue saves
  all_goals exact gathers_saveResource id

end Calls

variable (platform kb store) in
/-- A save gathers its result from the operations that are not dropped. -/
theorem gathers_save (stack : ℕ) (callers : List CallSite) (r : SavedResource) (parent : Option ℕ)
    (key linkType : String) :
    Ensures (save platform kb store stack callers r parent key linkType)
      (Gathering callers true) := by
  induction stack generalizing callers r parent key linkType with
  | zero => exact fun s res t run => nomatch run
  | succ stack ih => exact gathers_saveWith ih r parent key linkType

variable (platform kb store) in
theorem gathers_saveRoot (stack : ℕ) (r : SavedResource) (parent : Option ℕ)
    (key linkType : String) :
    Ensures (saveRoot platform kb store stack r parent key linkType) (Gathering [] true) := by
  have saves := gathers_save platform kb store stack
  cases r with
  | howTo i => exact gathers_saveHowTo saves
  | solution i => exact gathers_saveSolution saves
  | _ => exact saves [] _ parent key linkType

end Reporting

/-- A save that returns `true` has performed operations of the knowledge base that all
returned `true`. -/
def ReportsFailure : EStateM.Result KBFailure RecordedWorld Bool → Prop
  | .ok true t => ∀ op ∈ t.log, op.ok = true
  | .ok false _ => True
  | .error _ _ => True

/-- A save of a process that has performed nothing yet. -/
def Reporting.recordedSave (platform : Platform) (kb : KBService) (store : IssueStore) (stack : ℕ)
    (w : World) (r : SavedResource) (parent : Option ℕ) (key linkType : String) :
    EStateM.Result KBFailure RecordedWorld Bool :=
  (saveRoot platform kb store stack r parent key linkType).run { w with log := [] }

/-- A save that returns has reported failure exactly when an operation whose result is dropped has
failed only along with one whose result is not. -/
theorem reportsFailure_iff_of_run {platform : Platform} {kb : KBService} {store : IssueStore}
    {stack : ℕ} {w : World} {r : SavedResource} {parent : Option ℕ} {key linkType : String}
    {res : Bool} {t : RecordedWorld}
    (run : Reporting.recordedSave platform kb store stack w r parent key linkType = .ok res t) :
    ReportsFailure (.ok res t) ↔ ((∃ op ∈ t.log, op.Dropped ∧ op.ok = false) →
      ∃ op ∈ t.log, ¬ op.Dropped ∧ op.ok = false) := by
  obtain ⟨entries, added, -, gathered⟩ :=
    Reporting.gathers_saveRoot platform kb store stack r parent key linkType _ res t run
  have logged : t.log = entries := added
  rw [← logged] at gathered
  have result := gathered (List.forall_mem_nil _)
  rw [eq_self_iff_true, true_and] at result
  cases res with
  | true =>
    have passed := result.mp rfl
    constructor
    · rintro reports ⟨op, member, -, failed⟩
      exact absurd (reports op member) (by simp [failed])
    · intro visible op member
      by_contra failed
      rw [Bool.not_eq_true] at failed
      -- the failure is dropped, so there is another one that would be seen
      have dropped := (passed op member).resolve_right (by simp [failed])
      obtain ⟨other, present, kept, failed'⟩ := visible ⟨op, member, dropped, failed⟩
      exact absurd (passed other present) (by simp [kept, failed'])
  | false =>
    refine iff_of_true trivial fun _ => ?_
    by_contra none
    refine Bool.false_ne_true (result.mpr fun op member => ?_)
    by_contra seen
    rw [not_or, Bool.not_eq_true] at seen
    exact none ⟨op, member, seen⟩

/-! ### Failures that are not reported -/

/-- A knowledge base that refuses some resources and all links. -/
def KBService.refusing (refuses : SavedResource → Bool) (store : IssueStore) : KBService where
  saveResource child parent key linkType := do
    if refuses child then return false
    N4JKB.saveExported (store.uriRef (← get).heap child) (fun _ => {}) parent key linkType
    return true
  createLink _ _ _ _ := return false

/-- A solved issue whose network has a concept twice, and a frame with one resource. -/
def oneIssue : IssueStore where
  solvedIssue _ := { issue := 0, solution := 0, uri := 2 }
  solution _ := { resources := [0], uri := 3 }
  howTo _ := { parameters := [0], uri := 4 }
  frame _ := { resources := InsertionMap.empty.insert 6 (.plain 6 {}), uri := 5 }

/-- A process with the objects of the issue. -/
def issueWorld : World where
  heap :=
    { uris := .ofList [{ name := "concept" }, { name := "network" }, { name := "issue" },
        { name := "solution" }, { name := "howTo" }, { name := "frame" }, { name := "resource" }]
      concepts := .ofList [{ uri := 0 }]
      networks := .ofList [{ nodes := [0, 0], uri := 1 }] }
  kb := .onlyRoot
  id2object _ := none

/-- The solved issue and the resource of the frame. -/
def SavedResource.atTheEnds : SavedResource → Bool
  | solvedIssue _ | plain _ _ => true
  | _ => false

/-- The save of the solved issue by a knowledge base that refuses links and what is at the
ends. -/
def refusedSave : EStateM.Result KBFailure RecordedWorld Bool :=
  Reporting.recordedSave .plain (.refusing SavedResource.atTheEnds oneIssue) oneIssue 3 issueWorld
    (.solvedIssue 0) (some KB.rootId) "issue" "solvedIssues"

example : (finalState refusedSave).log.map PerformedOperation.ok =
    [false, true, true, false, false, false, true, true, true, false] := by decide +kernel

/-- A save that returns `true` although an operation has failed. -/
theorem not_reportsFailure {outcome : EStateM.Result KBFailure RecordedWorld Bool}
    (value : returned outcome = some true)
    (failed : ∃ op ∈ (finalState outcome).log, op.ok = false) :
    ¬ ReportsFailure outcome := by
  intro reports
  rw [eq_ok_of_returned value] at reports
  obtain ⟨op, member, failed⟩ := failed
  exact absurd (reports op member) (by simp [failed])

/-- The solved issue is reported as saved. -/
theorem refused_save_returns_true : ¬ ReportsFailure refusedSave :=
  not_reportsFailure (by decide +kernel) (by decide +kernel)

end ThinkingUnderstanding
