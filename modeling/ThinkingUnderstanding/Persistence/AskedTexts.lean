import ThinkingUnderstanding.Persistence.SavesAlike

/-!
# The texts that a save asks for

The key under which a resource is saved is the text of its URI, and so is the mark by which a
sentence or a narrative is known to be saved. `KnowledgeURI.uri` makes the text at the first
request for it. Here the `save` methods are modelled with these requests, each noted with the
fields of the URI at that moment. When the requests are forgotten, the methods are those that
report their results.

## Main definitions

* `AskedText` — a request for the text of a URI
* `Asking.ask` — `KnowledgeURI.uri` and `KnowledgeURI.toString`
* `Asking.save`, `Asking.saveRoot` — the `save` methods

## Main results

* `Asking.forgets_saveRoot` — a save, when the requests are forgotten
-/

namespace ThinkingUnderstanding

open Math Semantics

/-- The methods that give the text of a URI. -/
inductive TextRequest
  | uri
  | toString
  deriving DecidableEq, Repr

/-- A request for the text of a URI object: the object as it was, and the text, or nothing when
there was an exception. -/
structure AskedText where
  request : TextRequest
  u : UriRef
  fields : KnowledgeURI
  text : Option String
  deriving DecidableEq, Repr

/-- The state of a process, with the requests for texts of URIs. -/
structure AskedWorld extends RecordedWorld where
  asked : List AskedText := []

/-- A method whose requests are noted. -/
abbrev AskingProgram (α : Type) := EStateM KBFailure AskedWorld α

namespace Asking

/-- A method that asks for no text. -/
def unasked {α : Type} (p : SaveProgram α) : AskingProgram α := fun s =>
  match p.run s.toRecordedWorld with
  | .ok a w => .ok a { s with toRecordedWorld := w }
  | .error e w => .error e { s with toRecordedWorld := w }

theorem onPart_unasked {α : Type} (p : SaveProgram α) :
    OnPart AskedWorld.toRecordedWorld (fun s w => { s with toRecordedWorld := w }) (unasked p) p where
  run_of_ok {s a t} run := by
    change unasked _ s = _
    rw [unasked, run]
  run_of_error {s e t} run := by
    change unasked _ s = _
    rw [unasked, run]

/-- A method that neither asks for a text nor performs an operation of the knowledge base. -/
def quietly {α : Type} (p : KBProgram α) : AskingProgram α := unasked (Reporting.unrecorded p)

variable (platform : Platform) (kb : KBService) (store : IssueStore)

/-- `KnowledgeURI.uri` and `KnowledgeURI.toString`, which differ in the type of the result. -/
def ask (request : TextRequest) (u : UriRef) : AskingProgram String := fun s =>
  match (Reporting.unrecorded (uriText platform u)).run s.toRecordedWorld with
  | .ok text w => .ok text
      { toRecordedWorld := w, asked := s.asked ++ [⟨request, u, s.heap.uri u, some text⟩] }
  | .error e w => .error e
      { toRecordedWorld := w, asked := s.asked ++ [⟨request, u, s.heap.uri u, none⟩] }

theorem run_ask (request : TextRequest) (u : UriRef) (s : AskedWorld) :
    (ask platform request u).run s =
      match (Reporting.unrecorded (uriText platform u)).run s.toRecordedWorld with
      | .ok text w => .ok text
          { toRecordedWorld := w, asked := s.asked ++ [⟨request, u, s.heap.uri u, some text⟩] }
      | .error e w => .error e
          { toRecordedWorld := w, asked := s.asked ++ [⟨request, u, s.heap.uri u, none⟩] } := rfl

/-- A `save` method: chain of calls, resource, parent, key and type of the link. -/
abbrev Saver := List CallSite → SavedResource → Option ℕ → String → String → AskingProgram Bool

/-- A call of `save` in a loop. -/
structure Call where
  resource : SavedResource
  key : AskingProgram String
  linkType : String

/-- The key of a call, as its argument is evaluated. -/
def keyText (child : Child) : AskingProgram String := do
  match child.key with
  | .resourceURI => ask platform .toString ((← get).heap.uriRef child.resource)
  | .linkName text => return text

/-- `res &= x.save(kb, this, key, linkType, saved)`, where `this` is converted to a number. -/
def saveInto (save : Saver) (callers : List CallSite) (site : CallSite)
    (convert : KBProgram (Option ℕ)) (res : Bool) (call : Call) : AskingProgram Bool := do
  let this ← quietly convert
  let key ← call.key
  let ok ← save (site :: callers) call.resource this key call.linkType
  return res && ok

/-- What the `save` methods of concepts, phrases and networks have in common. -/
def saveWithChildren (save : Saver) (children : Heap → List Child) (callers : List CallSite)
    (this : ResourceRef) (parent : Option ℕ) (key linkType : String) : AskingProgram Bool := do
  let refObject ← quietly (KBMap.get this)
  let uid := (← get).heap.uid this
  if ← unasked (Reporting.checkIfSaved kb callers parent key linkType refObject uid) then
    return true
  let res ← unasked (Reporting.saveResource kb callers (.graph this) parent key linkType)
  quietly (appendToSave this)
  let heap := (← get).heap
  let calls := (children heap).map fun child =>
    { resource := .graph child.resource, key := keyText platform child, linkType := child.linkType }
  calls.foldlM (saveInto save callers .child (KBMap.get this)) res

/-- `Concept.save`. -/
def Concept.save (save : Saver) (callers : List CallSite) (c : ConceptRef) :
    Option ℕ → String → String → AskingProgram Bool :=
  saveWithChildren platform kb save (fun heap => heap.conceptChildren c) callers (.concept c)

/-- `AnnotatedPhrase.save`. -/
def AnnotatedPhrase.save (save : Saver) (callers : List CallSite) (p : PhraseRef) :
    Option ℕ → String → String → AskingProgram Bool :=
  saveWithChildren platform kb save (fun heap => heap.phraseChildren p) callers (.phrase p)

/-- `ConceptNetwork.save`. -/
def ConceptNetwork.save (save : Saver) (callers : List CallSite) (n : NetworkRef) :
    Option ℕ → String → String → AskingProgram Bool :=
  saveWithChildren platform kb save (fun heap => heap.networkChildren n) callers (.network n)

/-- What the `save` methods of sentences and narratives have in common. -/
def saveNarrated (save : Saver) (callers : List CallSite) (this : SavedResource) (u : UriRef)
    (calls : List Call) (parent : Option ℕ) (key linkType : String) : AskingProgram Bool := do
  let uri ← ask platform .toString u
  if uri ∈ (← get).saved then
    let child ← quietly (KBMap.getURI u)
    unasked (Reporting.createLink kb callers parent child linkType key)
    return true
  modify fun s => { s with saved := s.saved ++ [uri] }
  let res ← unasked (Reporting.saveResource kb callers this parent key linkType)
  calls.foldlM (saveInto save callers .child (KBMap.getURI u)) res

/-- `AnnotatedSentence.save`. -/
def AnnotatedSentence.save (save : Saver) (callers : List CallSite) (x : AnnotatedSentence) :
    Option ℕ → String → String → AskingProgram Bool :=
  saveNarrated platform kb save callers (.sentence x) x.uri
    (x.phrases.map fun p =>
      { resource := .graph (.phrase p)
        key := keyText platform (Heap.child phrasesLinkName (.phrase p))
        linkType := phrasesLinkName })

/-- `AnnotatedNarrative.save`. -/
def AnnotatedNarrative.save (save : Saver) (callers : List CallSite) (n : AnnotatedNarrative) :
    Option ℕ → String → String → AskingProgram Bool :=
  saveNarrated platform kb save callers (.narrative n) n.uri
    (n.sentences.map fun x =>
      { resource := .sentence x, key := ask platform .toString x.uri, linkType := phrasesLinkName })

/-- A call of `save` with the default value of its last parameter, an empty list buffer. -/
def withEmptyList (p : AskingProgram Bool) : AskingProgram Bool := do
  let saved := (← get).saved
  modify fun s => { s with saved := [] }
  let ok ← p
  modify fun s => { s with saved := saved }
  return ok

/-- `HowTo.save`. -/
def HowTo.save (save : Saver) (callers : List CallSite) (i : ℕ) (parent : Option ℕ)
    (key linkType : String) : AskingProgram Bool := do
  let howTo := store.howTo i
  let res ← unasked (Reporting.saveResource kb callers (.howTo i) parent key linkType)
  howTo.parameters.foldlM (fun res x => do
    let frame := store.frame x
    let this ← quietly (KBMap.getURI howTo.uri)
    let key ← ask platform .toString frame.uri
    -- `Frame` inherits `Resource.save`
    let ok ← unasked
      (Reporting.saveResource kb (.frame :: callers) (.frame x) this key defaultLinkName)
    frame.resources.entries.forM fun (k, y) => do
      let x ← quietly (KBMap.getURI frame.uri)
      let key ← ask platform .toString k
      let _ok ← withEmptyList (save (.frameResource :: callers) y x key defaultLinkName)
    return res && ok) res

/-- `Solution.save`. -/
def Solution.save (save : Saver) (callers : List CallSite) (i : ℕ) (parent : Option ℕ)
    (key linkType : String) : AskingProgram Bool := do
  let solution := store.solution i
  let res ← unasked (Reporting.saveResource kb callers (.solution i) parent key linkType)
  solution.resources.foldlM (fun res x => do
    let this ← quietly (KBMap.getURI solution.uri)
    let key ← ask platform .toString (store.howTo x).uri
    let ok ← HowTo.save platform kb store save (.howTo :: callers) x this key defaultLinkName
    return res && ok) res

/-- `SolvedIssue.save`. -/
def SolvedIssue.save (save : Saver) (callers : List CallSite) (i : ℕ) (parent : Option ℕ)
    (key linkType : String) : AskingProgram Bool := do
  let solvedIssue := store.solvedIssue i
  let _res ← unasked (Reporting.saveResource kb callers (.solvedIssue i) parent key linkType)
  let this ← quietly (KBMap.getURI solvedIssue.uri)
  let _ok ← withEmptyList
    (save (.issue :: callers) (.graph (.network solvedIssue.issue)) this "" conceptsNetworkName)
  let this ← quietly (KBMap.getURI solvedIssue.uri)
  Solution.save platform kb store save (.solution :: callers) solvedIssue.solution this ""
    solutionName

/-- The `save` method with a list buffer, calling `save` for what the resource is made of. -/
def saveWith (save : Saver) (callers : List CallSite) (r : SavedResource) :
    Option ℕ → String → String → AskingProgram Bool :=
  match r with
  | .graph (.concept c) => Concept.save platform kb save callers c
  | .graph (.phrase p) => AnnotatedPhrase.save platform kb save callers p
  | .graph (.network n) => ConceptNetwork.save platform kb save callers n
  | .sentence x => AnnotatedSentence.save platform kb save callers x
  | .narrative n => AnnotatedNarrative.save platform kb save callers n
  | .solvedIssue i => SolvedIssue.save platform kb store save callers i
  | .graph (.link _) | .solution _ | .howTo _ | .frame _ | .plain _ _ =>
      fun parent key linkType => unasked (Reporting.saveResource kb callers r parent key linkType)

/-- The `save` method with a list buffer, on a stack of the given depth. -/
def save : ℕ → Saver
  | 0 => fun _ _ _ _ _ => throw .stackOverflowError
  | stack + 1 => saveWith platform kb store (save stack)

/-- The `save` that is called for a resource by itself. -/
def saveRoot (stack : ℕ) : SavedResource → Option ℕ → String → String → AskingProgram Bool
  | .howTo i => HowTo.save platform kb store (save platform kb store stack) [] i
  | .solution i => Solution.save platform kb store (save platform kb store stack) [] i
  | r => save platform kb store stack [] r

/-! ### Saves without the requests -/

/-- Without the requests. -/
def Unnoted {α : Type} (p : AskingProgram α) (q : SaveProgram α) : Prop :=
  Forgets AskedWorld.toRecordedWorld id p q

variable {platform kb store} {callers : List CallSite} {parent : Option ℕ} {key linkType : String}

theorem unnoted_unasked {α : Type} (p : SaveProgram α) : Unnoted (unasked p) p :=
  (onPart_unasked p).forgets fun _ _ => rfl

/-- A request, when it is not noted. -/
theorem unnoted_ask (request : TextRequest) (u : UriRef) :
    Unnoted (ask platform request u) (Reporting.unrecorded (uriText platform u)) := by
  intro s
  rw [run_ask]
  cases (Reporting.unrecorded (uriText platform u)).run s.toRecordedWorld with
  | ok text w => rfl
  | error e w => rfl

theorem unnoted_keyText (child : Child) :
    Unnoted (keyText platform child) (Reporting.unrecorded (child.keyText platform)) := by
  intro s
  unfold keyText Child.keyText
  cases child.key with
  | resourceURI => exact unnoted_ask .toString _ s
  | linkName text => rfl

/-- An empty list buffer is passed in both. -/
theorem unnoted_withEmptyList {p : AskingProgram Bool} {q : SaveProgram Bool} (same : Unnoted p q) :
    Unnoted (withEmptyList p) (Reporting.withEmptyList q) := by
  refine Forgets.get_bind fun s => ?_
  have emptied : Unnoted (modify fun s => { s with saved := [] })
    (modify fun s => { s with saved := [] }) := fun _ => rfl
  exact emptied.bind fun _ => same.bind fun ok _ => rfl

section Save

variable {save : Saver} {saveNoted : Reporting.Saver}
  (alike : ∀ callers r parent key linkType,
    Unnoted (save callers r parent key linkType) (saveNoted callers r parent key linkType))

include alike

/-- A turn of a loop. -/
theorem unnoted_saveInto {call : Call} {call' : Reporting.Call}
    (resource : call.resource = call'.resource) (linkType : call.linkType = call'.linkType)
    (asked : Unnoted call.key (Reporting.unrecorded call'.key)) (site : CallSite)
    (convert : KBProgram (Option ℕ)) (res : Bool) :
    Unnoted (saveInto save callers site convert res call)
      (Reporting.saveInto saveNoted callers site convert res call') := by
  refine (unnoted_unasked _).bind fun this => asked.bind fun key => ?_
  rw [resource, linkType]
  exact (alike _ _ _ _ _).bind fun ok => .pure rfl

theorem unnoted_saveWithChildren (children : Heap → List Child) (r : ResourceRef) :
    Unnoted (saveWithChildren platform kb save children callers r parent key linkType)
      (Reporting.saveWithChildren platform kb saveNoted children callers r parent key
        linkType) := by
  refine (unnoted_unasked _).bind fun refObject => Forgets.get_bind fun s => ?_
  refine (unnoted_unasked _).bind fun known => ?_
  cases known with
  | true => exact .pure rfl
  | false =>
    refine (unnoted_unasked _).bind fun res => (unnoted_unasked _).bind fun _ => ?_
    refine Forgets.get_bind fun s => ?_
    dsimp only
    rw [List.foldlM_map, List.foldlM_map]
    exact Forgets.foldlM_id _ (fun res child _ =>
      unnoted_saveInto alike rfl rfl (unnoted_keyText child) .child _ res) res

theorem unnoted_saveNarrated {α : Type} (as : List α) {call : α → Call}
    {call' : α → Reporting.Call} (resource : ∀ a, (call a).resource = (call' a).resource)
    (linkTypes : ∀ a, (call a).linkType = (call' a).linkType)
    (asked : ∀ a, Unnoted (call a).key (Reporting.unrecorded (call' a).key)) (r : SavedResource)
    (u : UriRef) :
    Unnoted (saveNarrated platform kb save callers r u (as.map call) parent key linkType)
      (Reporting.saveNarrated platform kb saveNoted callers r u (as.map call') parent key
        linkType) := by
  refine (unnoted_ask .toString u).bind fun uri => Forgets.get_bind fun s => ?_
  dsimp only [id_eq]
  split
  · refine (unnoted_unasked _).bind fun child => (unnoted_unasked _).bind fun _ => ?_
    exact .pure rfl
  · have noted : Unnoted (modify fun s => { s with saved := s.saved ++ [uri] })
      (modify fun s => { s with saved := s.saved ++ [uri] }) := fun _ => rfl
    refine noted.bind fun _ => (unnoted_unasked _).bind fun res => ?_
    rw [List.foldlM_map, List.foldlM_map]
    exact Forgets.foldlM_id _ (fun res a _ =>
      unnoted_saveInto alike (resource a) (linkTypes a) (asked a) .child _ res) res

theorem unnoted_saveHowTo (i : ℕ) :
    Unnoted (HowTo.save platform kb store save callers i parent key linkType)
      (Reporting.HowTo.save platform kb store saveNoted callers i parent key linkType) := by
  refine (unnoted_unasked _).bind fun res => Forgets.foldlM_id _ (fun res x _ => ?_) res
  refine (unnoted_unasked _).bind fun this => (unnoted_ask _ _).bind fun key => ?_
  refine (unnoted_unasked _).bind fun ok => ?_
  refine Forgets.bind (Forgets.forM _ fun entry _ => ?_) fun _ => .pure rfl
  refine (unnoted_unasked _).bind fun x => (unnoted_ask _ _).bind fun key => ?_
  exact (unnoted_withEmptyList (alike _ _ _ _ _)).bind fun _ => .pure rfl

theorem unnoted_saveSolution (i : ℕ) :
    Unnoted (Solution.save platform kb store save callers i parent key linkType)
      (Reporting.Solution.save platform kb store saveNoted callers i parent key linkType) := by
  refine (unnoted_unasked _).bind fun res => Forgets.foldlM_id _ (fun res x _ => ?_) res
  refine (unnoted_unasked _).bind fun this => (unnoted_ask _ _).bind fun key => ?_
  exact (unnoted_saveHowTo alike _).bind fun ok => .pure rfl

theorem unnoted_saveSolvedIssue (i : ℕ) :
    Unnoted (SolvedIssue.save platform kb store save callers i parent key linkType)
      (Reporting.SolvedIssue.save platform kb store saveNoted callers i parent key linkType) := by
  refine (unnoted_unasked _).bind fun _ => (unnoted_unasked _).bind fun this => ?_
  refine (unnoted_withEmptyList (alike _ _ _ _ _)).bind fun _ => ?_
  exact (unnoted_unasked _).bind fun this => unnoted_saveSolution alike _

theorem unnoted_saveWith (r : SavedResource) :
    Unnoted (saveWith platform kb store save callers r parent key linkType)
      (Reporting.saveWith platform kb store saveNoted callers r parent key linkType) := by
  unfold saveWith Reporting.saveWith
  split
  · exact unnoted_saveWithChildren alike _ _
  · exact unnoted_saveWithChildren alike _ _
  · exact unnoted_saveWithChildren alike _ _
  · exact unnoted_saveNarrated alike _ (fun _ => rfl) (fun _ => rfl)
      (fun p => unnoted_keyText (Heap.child phrasesLinkName (.phrase p))) _ _
  · exact unnoted_saveNarrated alike _ (fun _ => rfl) (fun _ => rfl)
      (fun _ => unnoted_ask _ _) _ _
  · exact unnoted_saveSolvedIssue alike _
  all_goals exact unnoted_unasked _

end Save

variable (platform kb store) in
theorem unnoted_save (stack : ℕ) (callers : List CallSite) (r : SavedResource)
    (parent : Option ℕ) (key linkType : String) :
    Unnoted (save platform kb store stack callers r parent key linkType)
      (Reporting.save platform kb store stack callers r parent key linkType) := by
  induction stack generalizing callers r parent key linkType with
  | zero => exact Forgets.throw _
  | succ stack ih => exact unnoted_saveWith ih r

/-- When the requests are forgotten, a save is the one that reports its results. -/
theorem forgets_saveRoot (platform : Platform) (kb : KBService) (store : IssueStore) (stack : ℕ)
    (r : SavedResource) (parent : Option ℕ) (key linkType : String) :
    Unnoted (saveRoot platform kb store stack r parent key linkType)
      (Reporting.saveRoot platform kb store stack r parent key linkType) := by
  have alike := unnoted_save platform kb store stack
  cases r with
  | howTo i => exact unnoted_saveHowTo alike i
  | solution i => exact unnoted_saveSolution alike i
  | _ => exact alike [] _ parent key linkType

end Asking

end ThinkingUnderstanding
