import ThinkingUnderstanding.Math.KeptViews
import ThinkingUnderstanding.Persistence.AskedTexts
import ThinkingUnderstanding.Persistence.Identity

/-!
# When the text of a URI is stale

`KnowledgeURI.uri` keeps the text it makes at the first request, in `_uRI`. Nothing drops it:
neither the assignments of the name and the uid, nor `KBMap.register`, by which a save
assigns a uid after a resource was asked for its key. The text of a later request is that of the
fields at the first one.

## Main definitions

* `UriOperation` — an assignment, a registration, a save, or a request for a text
* `AskedWorld.Answers` — the texts that are kept and the requests so far
* `AskedText.Current` — a request whose fields have the encoding of the first one

## Main results

* `maintains_perform` — what every operation keeps
* `toString_current_iff` — when every text is that of the fields at the moment
-/

namespace ThinkingUnderstanding

open Math Semantics

/-- What is called on URI objects. -/
inductive UriOperation
  /-- `u.name = value`. -/
  | assignName (u : UriRef) (value : String)
  /-- `u.uid = in`. -/
  | assignUid (u : UriRef) (value : String)
  /-- `KBMap.register(r, id)`. -/
  | register (r : SavedResource) (id : ℕ)
  /-- `r.save(kb, parent, key, linkType, saved)`. -/
  | save (saved : List String) (stack : ℕ) (r : SavedResource) (parent : Option ℕ)
      (key linkType : String)
  /-- `u.uri()` and `u.toString`. -/
  | ask (request : TextRequest) (u : UriRef)

namespace UriOperation

variable (platform : Platform) (store : IssueStore)

/-- `KBMap.register`. Of other resources than those of the graph, the table does not hold the
object. -/
def performRegister (r : SavedResource) (id : ℕ) : KBProgram Unit :=
  match r with
  | .graph r => KBMap.register r id
  | _ => modify fun s => { s with
      heap := s.heap.modifyURI (store.uriRef s.heap r) fun uri => { uri with uid := toString id } }

/-- An operation, with the requests for texts it makes. -/
def perform : UriOperation → AskingProgram Unit
  | assignName u value => modify fun s => { s with
      heap := s.heap.modifyURI u fun uri => { uri with name := value } }
  | assignUid u value => modify fun s => { s with
      heap := s.heap.modifyURI u fun uri => { uri with uid := value } }
  | register r id => Asking.quietly (performRegister store r id)
  | save saved stack r parent key linkType => do
      modify fun s => { s with saved }
      discard (Asking.saveRoot platform (.n4jkb store) store stack r parent key linkType)
  | ask request u => discard (Asking.ask platform request u)

end UriOperation

/-- The text that is to be given: the namespace, the name, the revision and the uid as they were
at the request. -/
def AskedText.encoding (a : AskedText) : String := a.fields.format

/-- `java.net.URI` accepts the encoding of the fields, and it is the one they had when a text of
the object was first asked for and accepted. -/
def AskedText.Current (platform : Platform) (before : List AskedText) (a : AskedText) : Prop :=
  platform.acceptsURI a.encoding ∧
    ∀ first ∈ before.find? fun b => b.u = a.u ∧ platform.acceptsURI b.encoding,
      first.encoding = a.encoding

/-- The texts that are kept in the URI objects. -/
def World.HasTexts (texts : UriRef → Option String) (s : World) : Prop :=
  ∀ u, (s.heap.uri u).cached = texts u

/-- The requests have been answered by the first accepted encoding, which is kept. -/
structure AskedWorld.Answers (platform : Platform) (s : AskedWorld) : Prop where
  answered : Answered AskedText.u AskedText.encoding platform.acceptsURI AskedText.text s.asked
  kept : s.HasTexts fun u =>
    (firstAccepted AskedText.u AskedText.encoding platform.acceptsURI s.asked u).map
      AskedText.encoding

/-- A process that has not been asked for a text. -/
def World.unasked (w : World) : AskedWorld := { w with log := [], asked := [] }

/-! ### What leaves the texts -/

section Texts

variable {texts : UriRef → Option String} {platform : Platform} {store : IssueStore}

/-- An assignment to a field of a URI leaves the text. -/
theorem World.HasTexts.modifyURI {s t : World} (has : s.HasTexts texts) {u : UriRef}
    {f : KnowledgeURI → KnowledgeURI} (heap : t.heap = s.heap.modifyURI u f)
    (leaves : ∀ uri, (f uri).cached = uri.cached) : t.HasTexts texts := by
  intro v
  rw [← has v, heap]
  change ((s.heap.uris.modify u f).get v).cached = (s.heap.uris.get v).cached
  rw [Arena.get_modify]
  split_ifs with same
  · rw [leaves, same]
  · rfl

theorem maintains_getURI (u : UriRef) :
    Maintains (World.HasTexts texts) (KBMap.getURI u) fun _ => True := by
  refine maintains_get_bind fun s _ => ?_
  dsimp only
  split_ifs
  · exact maintains_pure trivial
  · split
    · exact maintains_pure trivial
    · exact maintains_throw _

theorem maintains_get_resource (r : ResourceRef) :
    Maintains (World.HasTexts texts) (KBMap.get r) fun _ => True :=
  fun s has => maintains_getURI (s.heap.uriRef r) s has

theorem maintains_appendToSave (r : ResourceRef) :
    Maintains (World.HasTexts texts) (appendToSave r) fun _ => True := by
  refine maintains_get_bind fun s _ => ?_
  dsimp only
  split_ifs
  · exact (maintains_throw (Q := fun _ => True) _).bind fun _ _ => maintains_modify fun _ => id
  · exact maintains_modify fun _ => id

theorem maintains_createLink (parent child : Option ℕ) (linkType key : String) :
    Maintains (World.HasTexts texts) (N4JKB.createLink parent child linkType key)
      fun _ => True := by
  refine maintains_get_bind fun s has => ?_
  split
  · exact maintains_set has
  · exact maintains_throw _
  · exact maintains_throw _

/-- A resource is stored by an assignment of its uid. -/
theorem maintains_saveExported (u : UriRef) (exported : Heap → Properties) (parent : Option ℕ)
    (key linkType : String) :
    Maintains (World.HasTexts texts) (N4JKB.saveExported u exported parent key linkType)
      fun _ => True :=
  maintains_modify fun _ has => has.modifyURI rfl fun _ => rfl

theorem maintains_register (r : ResourceRef) (id : ℕ) :
    Maintains (World.HasTexts texts) (KBMap.register r id) fun _ => True :=
  maintains_modify fun _ has => has.modifyURI rfl fun _ => rfl

theorem maintains_performRegister (r : SavedResource) (id : ℕ) :
    Maintains (World.HasTexts texts) (UriOperation.performRegister store r id) fun _ => True := by
  unfold UriOperation.performRegister
  split
  · exact maintains_register _ id
  · exact maintains_modify fun _ has => has.modifyURI rfl fun _ => rfl

theorem maintains_n4jkb_saveResource (r : SavedResource) (parent : Option ℕ)
    (key linkType : String) :
    Maintains (World.HasTexts texts) ((KBService.n4jkb store).saveResource r parent key linkType)
      fun _ => True := by
  cases r with
  | graph r =>
    have stored : Maintains (World.HasTexts texts) (N4JKB.saveResource r parent key linkType)
        fun _ => True := by
      refine maintains_get_bind fun s has => Maintains.bind (maintains_set ?_) fun _ _ => ?_
      · exact has
      · exact maintains_register r _
    exact stored.bind fun _ _ => maintains_pure trivial
  | _ =>
    exact maintains_get_bind fun s _ =>
      (maintains_saveExported _ _ _ _ _).bind fun _ _ => maintains_pure trivial

/-- A method that is recorded leaves the texts that it leaves when it is not. -/
theorem maintains_unrecorded {α : Type} {p : KBProgram α}
    (leaves : Maintains (World.HasTexts texts) p fun _ => True) :
    Maintains (fun s : RecordedWorld => s.HasTexts texts) (Reporting.unrecorded p)
      fun _ => True :=
  (Reporting.onPart_unrecorded p).maintains (fun _ => World.HasTexts texts) (fun _ has => has)
    (fun _ _ _ kept => kept) fun _ _ => leaves

theorem maintains_saveResource (callers : List CallSite) (r : SavedResource) (parent : Option ℕ)
    (key linkType : String) :
    Maintains (fun s : RecordedWorld => s.HasTexts texts)
      (Reporting.saveResource (.n4jkb store) callers r parent key linkType) fun _ => True := by
  refine (maintains_unrecorded (maintains_n4jkb_saveResource r parent key linkType)).bind
    fun ok _ => ?_
  refine Maintains.bind (maintains_modify fun _ => id) fun _ _ => ?_
  exact maintains_pure trivial

theorem maintains_createLink_noted (callers : List CallSite) (parent child : Option ℕ)
    (linkType key : String) :
    Maintains (fun s : RecordedWorld => s.HasTexts texts)
      (Reporting.createLink (.n4jkb store) callers parent child linkType key) fun _ => True := by
  have linked : Maintains (World.HasTexts texts)
      ((KBService.n4jkb store).createLink parent child linkType key) fun _ => True :=
    (maintains_createLink parent child linkType key).bind fun _ _ => maintains_pure trivial
  exact (maintains_unrecorded linked).bind fun _ _ => maintains_modify fun _ => id

theorem maintains_checkIfSaved (callers : List CallSite) (parent refObject : Option ℕ)
    (key linkType uid : String) :
    Maintains (fun s : RecordedWorld => s.HasTexts texts)
      (Reporting.checkIfSaved (.n4jkb store) callers parent key linkType refObject uid)
      fun _ => True := by
  unfold Reporting.checkIfSaved
  split
  · exact maintains_pure trivial
  · refine maintains_get_bind fun s _ => ?_
    split
    · exact (maintains_createLink_noted _ _ _ _ _).bind fun _ _ => maintains_pure trivial
    · refine Maintains.bind (maintains_modify fun _ => id) fun _ _ => ?_
      exact maintains_pure trivial

end Texts

/-! ### Requests -/

section Requests

variable {platform : Platform}

/-- What asks for no text, and leaves those that are kept. -/
theorem maintains_unasked {α : Type} {p : SaveProgram α}
    (leaves : ∀ texts, Maintains (fun s : RecordedWorld => s.HasTexts texts) p fun _ => True) :
    Maintains (AskedWorld.Answers platform) (Asking.unasked p) fun _ => True :=
  (Asking.onPart_unasked p).maintains (fun s w => w.HasTexts fun u =>
      (firstAccepted AskedText.u AskedText.encoding platform.acceptsURI s.asked u).map
        AskedText.encoding)
    (fun _ answers => answers.kept) (fun _ _ answers kept => ⟨answers.answered, kept⟩)
    fun _ _ => leaves _

theorem maintains_quietly {α : Type} {p : KBProgram α}
    (leaves : ∀ texts, Maintains (World.HasTexts texts) p fun _ => True) :
    Maintains (AskedWorld.Answers platform) (Asking.quietly p) fun _ => True :=
  maintains_unasked fun texts => maintains_unrecorded (leaves texts)

variable {s : AskedWorld} {w : World} {request : TextRequest} {u : UriRef}

/-- After a request, its answer is what is kept. -/
theorem AskedWorld.Answers.ask (answers : s.Answers platform) {a : AskedText}
    (made : a.text = (s.heap.uri a.u).cached.or
      (if platform.acceptsURI a.encoding then some a.encoding else none))
    (self : (w.heap.uri a.u).cached = a.text)
    (others : ∀ v ≠ a.u, (w.heap.uri v).cached = (s.heap.uri v).cached) :
    AskedWorld.Answers platform { s with toWorld := w, asked := s.asked ++ [a] } := by
  let first := firstAccepted AskedText.u AskedText.encoding platform.acceptsURI
  have after : ∀ v, (first (s.asked ++ [a]) v).map AskedText.encoding =
      ((first s.asked v).map AskedText.encoding).or
        (if a.u = v ∧ platform.acceptsURI a.encoding then some a.encoding else none) :=
    map_firstAccepted_concat s.asked a
  have before : ∀ v, (s.heap.uri v).cached = (first s.asked v).map AskedText.encoding :=
    answers.kept
  have kept : (first (s.asked ++ [a]) a.u).map AskedText.encoding = a.text := by
    rw [after, ← before, made]
    exact congrArg _ (if_congr (and_iff_right rfl) rfl rfl)
  refine ⟨answered_concat_iff.mpr ⟨answers.answered, kept.symm⟩, fun v => ?_⟩
  by_cases same : v = a.u
  · rw [same]
    exact self.trans kept.symm
  · have other : ¬ (a.u = v ∧ platform.acceptsURI a.encoding) := fun here => same here.1.symm
    have rest := after v
    rw [if_neg other, Option.or_none, ← before, ← others v same] at rest
    exact rest.symm

/-- Every request is answered by what is kept, or by the encoding, which is then kept. -/
theorem maintains_ask (request : TextRequest) (u : UriRef) :
    Maintains (AskedWorld.Answers platform) (Asking.ask platform request u) fun _ => True := by
  intro s answers
  refine ⟨?_, fun _ _ _ => trivial⟩
  by_cases accepted : (s.heap.uri u).Accepted platform
  · obtain ⟨w, run, asked⟩ := run_uriText_of_accepted accepted
    rw [Asking.run_ask, (Reporting.onPart_unrecorded _).run_of_ok run]
    refine answers.ask (a := ⟨request, u, s.heap.uri u, some (s.heap.uri u).text⟩) ?_
      (by rw [asked.kept]) fun v other => by rw [asked.others v other]
    change some (s.heap.uri u).text = (s.heap.uri u).cached.or
      (if platform.acceptsURI (s.heap.uri u).format then some (s.heap.uri u).format else none)
    cases kept : (s.heap.uri u).cached with
    | some text => rw [KnowledgeURI.text, kept, Option.getD_some, Option.some_or]
    | none =>
      rw [KnowledgeURI.text, kept, Option.getD_none, Option.none_or, if_pos (accepted kept)]
  · obtain ⟨e, run⟩ := run_uriText_of_not_accepted accepted
    rw [Asking.run_ask, (Reporting.onPart_unrecorded _).run_of_error run]
    unfold KnowledgeURI.Accepted at accepted
    rw [Classical.not_imp] at accepted
    refine answers.ask (a := ⟨request, u, s.heap.uri u, none⟩) ?_ accepted.1 fun _ _ => rfl
    change none = (s.heap.uri u).cached.or
      (if platform.acceptsURI (s.heap.uri u).format then some (s.heap.uri u).format else none)
    rw [accepted.1, Option.none_or, if_neg accepted.2]

end Requests

/-! ### Saves -/

section Saves

variable {platform : Platform} {store : IssueStore} {save : Asking.Saver}

theorem maintains_askedKey (child : Child) :
    Maintains (AskedWorld.Answers platform) (Asking.keyText platform child) fun _ => True := by
  unfold Asking.keyText
  cases child.key with
  | resourceURI => exact maintains_get_bind fun s _ => maintains_ask .toString _
  | linkName text => exact maintains_pure trivial

/-- Notes in the list buffer leave the texts. -/
theorem maintains_saved (f : AskedWorld → List String) :
    Maintains (ε := KBFailure) (AskedWorld.Answers platform)
      (modify fun s => { s with saved := f s }) fun _ => True :=
  maintains_modify fun _ answers => ⟨answers.answered, answers.kept⟩

theorem maintains_withEmptyList {p : AskingProgram Bool}
    (saves : Maintains (AskedWorld.Answers platform) p fun _ => True) :
    Maintains (AskedWorld.Answers platform) (Asking.withEmptyList p) fun _ => True := by
  refine maintains_get_bind fun s _ => (maintains_saved fun _ => []).bind fun _ _ => ?_
  refine saves.bind fun ok _ => (maintains_saved fun _ => s.saved).bind fun _ _ => ?_
  exact maintains_pure trivial

theorem maintains_stored (callers : List CallSite) (r : SavedResource) (parent : Option ℕ)
    (key linkType : String) :
    Maintains (AskedWorld.Answers platform)
      (Asking.unasked (Reporting.saveResource (.n4jkb store) callers r parent key linkType))
      fun _ => True :=
  maintains_unasked fun _ => maintains_saveResource callers r parent key linkType

variable (saves : ∀ callers r parent key linkType, Maintains (AskedWorld.Answers platform)
  (save callers r parent key linkType) fun _ => True)

include saves

theorem maintains_saveInto (callers : List CallSite) (site : CallSite) {u : KBProgram (Option ℕ)}
    (converts : ∀ texts, Maintains (World.HasTexts texts) u fun _ => True) (res : Bool)
    {call : Asking.Call}
    (asks : Maintains (AskedWorld.Answers platform) call.key fun _ => True) :
    Maintains (AskedWorld.Answers platform) (Asking.saveInto save callers site u res call)
      fun _ => True := by
  refine (maintains_quietly converts).bind fun this _ => asks.bind fun key _ => ?_
  exact (saves _ _ _ _ _).bind fun ok _ => maintains_pure trivial

theorem maintains_saveWithChildren (children : Heap → List Child) (callers : List CallSite)
    (r : ResourceRef) (parent : Option ℕ) (key linkType : String) :
    Maintains (AskedWorld.Answers platform)
      (Asking.saveWithChildren platform (.n4jkb store) save children callers r parent key linkType)
      fun _ => True := by
  refine (maintains_quietly fun _ => maintains_get_resource r).bind fun refObject _ => ?_
  refine maintains_get_bind fun s _ => ?_
  refine (maintains_unasked fun _ => maintains_checkIfSaved _ _ _ _ _ _).bind fun known _ => ?_
  cases known with
  | true => exact maintains_pure trivial
  | false =>
    refine (maintains_stored callers (.graph r) parent key linkType).bind fun res _ => ?_
    refine (maintains_quietly fun _ => maintains_appendToSave r).bind fun _ _ => ?_
    refine maintains_get_bind fun s _ => ?_
    refine Maintains.foldlM _ (fun call member res _ => ?_) trivial
    obtain ⟨child, -, rfl⟩ := List.mem_map.mp member
    exact maintains_saveInto saves callers .child (fun _ => maintains_get_resource r) res
      (maintains_askedKey child)

theorem maintains_saveNarrated (callers : List CallSite) (r : SavedResource) (u : UriRef)
    {calls : List Asking.Call}
    (asks : ∀ call ∈ calls, Maintains (AskedWorld.Answers platform) call.key fun _ => True)
    (parent : Option ℕ) (key linkType : String) :
    Maintains (AskedWorld.Answers platform)
      (Asking.saveNarrated platform (.n4jkb store) save callers r u calls parent key linkType)
      fun _ => True := by
  refine (maintains_ask .toString u).bind fun uri _ => maintains_get_bind fun s _ => ?_
  split
  · refine (maintains_quietly fun _ => maintains_getURI u).bind fun child _ => ?_
    refine (maintains_unasked fun _ => maintains_createLink_noted _ _ _ _ _).bind fun _ _ => ?_
    exact maintains_pure trivial
  · refine (maintains_saved fun s => s.saved ++ [uri]).bind fun _ _ => ?_
    refine (maintains_stored callers r parent key linkType).bind fun res _ => ?_
    exact Maintains.foldlM _ (fun call member res _ => maintains_saveInto saves callers .child
      (fun _ => maintains_getURI u) res (asks call member)) trivial

theorem maintains_saveHowTo (callers : List CallSite) (i : ℕ) (parent : Option ℕ)
    (key linkType : String) :
    Maintains (AskedWorld.Answers platform)
      (Asking.HowTo.save platform (.n4jkb store) store save callers i parent key linkType)
      fun _ => True := by
  refine (maintains_stored _ _ _ _ _).bind fun res _ => ?_
  refine Maintains.foldlM _ (fun x _ res _ => ?_) trivial
  refine (maintains_quietly fun _ => maintains_getURI _).bind fun this _ => ?_
  refine (maintains_ask _ _).bind fun key _ => (maintains_stored _ _ _ _ _).bind fun ok _ => ?_
  refine Maintains.bind (Maintains.forM _ fun entry _ => ?_) fun _ _ => maintains_pure trivial
  refine (maintains_quietly fun _ => maintains_getURI _).bind fun x _ => ?_
  refine (maintains_ask _ _).bind fun key _ => ?_
  exact (maintains_withEmptyList (saves _ _ _ _ _)).bind fun _ _ => maintains_pure trivial

theorem maintains_saveSolution (callers : List CallSite) (i : ℕ) (parent : Option ℕ)
    (key linkType : String) :
    Maintains (AskedWorld.Answers platform)
      (Asking.Solution.save platform (.n4jkb store) store save callers i parent key linkType)
      fun _ => True := by
  refine (maintains_stored _ _ _ _ _).bind fun res _ => ?_
  refine Maintains.foldlM _ (fun x _ res _ => ?_) trivial
  refine (maintains_quietly fun _ => maintains_getURI _).bind fun this _ => ?_
  refine (maintains_ask _ _).bind fun key _ => ?_
  exact (maintains_saveHowTo saves _ _ _ _ _).bind fun ok _ => maintains_pure trivial

theorem maintains_saveSolvedIssue (callers : List CallSite) (i : ℕ) (parent : Option ℕ)
    (key linkType : String) :
    Maintains (AskedWorld.Answers platform)
      (Asking.SolvedIssue.save platform (.n4jkb store) store save callers i parent key linkType)
      fun _ => True := by
  refine (maintains_stored _ _ _ _ _).bind fun _ _ => ?_
  refine (maintains_quietly fun _ => maintains_getURI _).bind fun this _ => ?_
  refine (maintains_withEmptyList (saves _ _ _ _ _)).bind fun _ _ => ?_
  refine (maintains_quietly fun _ => maintains_getURI _).bind fun this _ => ?_
  exact maintains_saveSolution saves _ _ _ _ _

theorem maintains_saveWith (callers : List CallSite) (r : SavedResource) (parent : Option ℕ)
    (key linkType : String) :
    Maintains (AskedWorld.Answers platform)
      (Asking.saveWith platform (.n4jkb store) store save callers r parent key linkType)
      fun _ => True := by
  unfold Asking.saveWith
  split
  · exact maintains_saveWithChildren saves _ _ _ _ _ _
  · exact maintains_saveWithChildren saves _ _ _ _ _ _
  · exact maintains_saveWithChildren saves _ _ _ _ _ _
  · refine maintains_saveNarrated saves _ _ _ (fun call member => ?_) _ _ _
    obtain ⟨p, -, rfl⟩ := List.mem_map.mp member
    exact maintains_askedKey (Heap.child phrasesLinkName (.phrase p))
  · refine maintains_saveNarrated saves _ _ _ (fun call member => ?_) _ _ _
    obtain ⟨x, -, rfl⟩ := List.mem_map.mp member
    exact maintains_ask .toString x.uri
  · exact maintains_saveSolvedIssue saves _ _ _ _ _
  all_goals exact maintains_stored _ _ _ _ _

end Saves

/-! ### Runs -/

section Runs

variable (platform : Platform) (store : IssueStore)

theorem maintains_save (stack : ℕ) (callers : List CallSite) (r : SavedResource)
    (parent : Option ℕ) (key linkType : String) :
    Maintains (AskedWorld.Answers platform)
      (Asking.save platform (.n4jkb store) store stack callers r parent key linkType)
      fun _ => True := by
  induction stack generalizing callers r parent key linkType with
  | zero => exact maintains_throw _
  | succ stack ih => exact maintains_saveWith ih callers r parent key linkType

theorem maintains_saveRoot (stack : ℕ) (r : SavedResource) (parent : Option ℕ)
    (key linkType : String) :
    Maintains (AskedWorld.Answers platform)
      (Asking.saveRoot platform (.n4jkb store) store stack r parent key linkType)
      fun _ => True := by
  have saves := maintains_save platform store stack
  cases r with
  | howTo i => exact maintains_saveHowTo saves _ _ _ _ _
  | solution i => exact maintains_saveSolution saves _ _ _ _ _
  | _ => exact saves [] _ parent key linkType

/-- An operation answers its requests, and leaves the texts that are kept. -/
theorem maintains_perform (op : UriOperation) :
    Maintains (AskedWorld.Answers platform) (op.perform platform store) fun _ => True := by
  cases op with
  | assignName u value =>
    exact maintains_modify fun _ answers =>
      ⟨answers.answered, answers.kept.modifyURI rfl fun _ => rfl⟩
  | assignUid u value =>
    exact maintains_modify fun _ answers =>
      ⟨answers.answered, answers.kept.modifyURI rfl fun _ => rfl⟩
  | register r id => exact maintains_quietly fun _ => maintains_performRegister r id
  | save saved stack r parent key linkType =>
    refine (maintains_saved fun _ => saved).bind fun _ _ => ?_
    exact (maintains_saveRoot platform store stack r parent key linkType).bind fun _ _ =>
      maintains_pure trivial
  | ask request u => exact (maintains_ask request u).bind fun _ _ => maintains_pure trivial

/-- The requests of all operations are answered by the first accepted encoding. -/
theorem answers_runAll {w : World} (new : ∀ u, (w.heap.uri u).cached = none)
    (ops : List UriOperation) :
    (runAll (UriOperation.perform platform store) ops w.unasked).Answers platform :=
  invariant_runAll (fun _ op => (maintains_perform platform store op).keeps) ops
    ⟨answered_nil, new⟩

/-- In every run of operations on URI objects that have not been asked for their texts, the text
that `toString` returns is each time that of the fields at the moment exactly when each time
the fields have the encoding of the first request. -/
theorem toString_current_iff (platform : Platform) (store : IssueStore) (w : World)
    (new : ∀ u, (w.heap.uri u).cached = none) (ops : List UriOperation) :
    (∀ a ∈ (runAll (UriOperation.perform platform store) ops w.unasked).asked,
        a.request = .toString → a.text = some a.fields.format) ↔
      ∀ before a after,
        (runAll (UriOperation.perform platform store) ops w.unasked).asked =
            before ++ a :: after →
          a.request = .toString → a.Current platform before := by
  have answers := answers_runAll platform store new ops
  constructor
  · intro fresh before a after split called
    have member : a ∈ before ++ a :: after := List.mem_append_right before List.mem_cons_self
    exact (answers.answered.eq_some_view_iff split).mp (fresh a (split ▸ member) called)
  · intro current a member called
    obtain ⟨before, after, split⟩ := List.append_of_mem member
    exact (answers.answered.eq_some_view_iff split).mpr (current before a after split called)

end Runs

/-! ### A text that is stale -/

/-- A process with the concept of the user. -/
def userWorld : World where
  heap := { uris := .ofList [{ name := "user" }], concepts := .ofList [{ uri := 0 }] }
  kb := .onlyRoot
  id2object _ := none

theorem userWorld_new (u : UriRef) : (userWorld.heap.uri u).cached = none := by
  cases u with
  | zero => rfl
  | succ u => rfl

/-- The user is asked for a text, saved, and asked again. -/
def askedAround : List UriOperation :=
  [.ask .toString 0, .save [] 2 (.graph (.concept 0)) (some KB.rootId) "user" "users",
    .ask .toString 0]

/-- The criterion, where the text is asked for before the user has a uid, and after. -/
theorem askedAround_current_iff :
    (∀ a ∈ (runAll (UriOperation.perform .plain oneIssue) askedAround userWorld.unasked).asked,
        a.request = .toString → a.text = some a.fields.format) ↔
      ∀ before a after,
        (runAll (UriOperation.perform .plain oneIssue) askedAround userWorld.unasked).asked =
            before ++ a :: after →
          a.request = .toString → a.Current .plain before :=
  toString_current_iff .plain oneIssue userWorld userWorld_new askedAround

/-- After the save, the user still has the text without the uid. -/
theorem askedAround_stale :
    ¬ ∀ a ∈ (runAll (UriOperation.perform .plain oneIssue) askedAround userWorld.unasked).asked,
      a.request = .toString → a.text = some a.fields.format := by
  decide +kernel

example : (runAll (UriOperation.perform .plain oneIssue) askedAround userWorld.unasked).asked.map
    (fun a => (a.fields.uid, a.text)) =
      [("", some "tu-project.com/user@1.0#"), ("1", some "tu-project.com/user@1.0#")] := by
  decide +kernel

end ThinkingUnderstanding
