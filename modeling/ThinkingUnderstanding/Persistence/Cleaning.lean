import ThinkingUnderstanding.Persistence.FreshProcess

/-!
# Cleaning the database

`N4JKB` opens its database when it is first used and keeps the handle; a flag says that this
has been done. To clean the database is to shut the handle down, to delete the files and to
ask for the database again. The flag is still set, so what is asked for is the handle that has
been shut down, and no later use of `N4JKB` opens another one. `KBMap` is not part of it: the
table of objects is the one that was there before.

What a database that has been shut down does when it is used is not part of the repository.
It is a parameter, on which nothing here depends.

## Main definitions

* `DatabaseProcess` — a process, with the handle and the flag of `N4JKB`
* `N4JKB.apply`, `N4JKB.clean` — the methods
* `DatabaseProcess.perform` — a save or a load, which asks for the database first
* `CleaningResets` — after a clean everything is as in a fresh process

## Main results

* `isShutDown_runAll` — a handle that was shut down stays so
* `cleaningResets_iff` — cleaning resets only what is not used again
-/

namespace ThinkingUnderstanding

open Semantics

/-- The state of an `EmbeddedGraphDatabase`. -/
inductive DatabaseState
  | running
  | shutDown
  deriving DecidableEq, Repr

/-- A process, and the variables of the object `N4JKB` in it. The directory of the database
is the knowledge base of the world. -/
structure DatabaseProcess where
  world : World
  inited : Bool := false
  /-- `_GraphDb`, nothing for `null`. -/
  graphDb : Option DatabaseState := none

/-- A process that has just been started, with the objects that its operations are about. -/
def DatabaseProcess.start (heap : Heap) (disk : KB) : DatabaseProcess where
  world := { heap, kb := disk, id2object := fun _ => none }

/-- A method of `N4JKB`. -/
abbrev DatabaseProgram (α : Type) := EStateM KBFailure DatabaseProcess α

/-- `N4JKB.apply()`: the database is opened, unless the flag is set. The handle it returns is
the variable. -/
def N4JKB.apply : DatabaseProgram Unit := do
  if ¬ (← get).inited then
    modify fun p => { p with graphDb := some .running, inited := true }

/-- `N4JKB.clean()`. The directory is emptied, and a database opened on it would be `blank`. -/
def N4JKB.clean (blank : KB) : DatabaseProgram Unit := do
  if (← get).graphDb = none then N4JKB.apply
  modify fun p => { p with graphDb := some .shutDown }
  modify fun p => { p with world := { p.world with kb := blank } }
  N4JKB.apply

/-- The saves and loads. -/
inductive DatabaseOperation
  | saveResource (child : ResourceRef) (parent : Option ℕ) (key linkType : String)
  | createLink (parent child : Option ℕ) (linkType key : String)
  | loadChild (parent : Option ℕ) (key linkType : String)
  | loadChildrenList (parent : Option ℕ) (linkType : String)
  | loadChildrenMap (parent : Option ℕ) (linkType : String)
  | save (stack : ℕ) (r : ResourceRef) (parent : Option ℕ) (key linkType : String)
  | load (call : LoadCall)

/-- What an operation returns: `true`, a map of properties, several of them, or the
properties of the object that was loaded. -/
inductive DatabaseAnswer
  | done
  | child (values : Option Node)
  | children (values : List Node)
  | childrenMap (values : List (String × Node))
  | loaded (properties : Option Properties)
  deriving DecidableEq

/-- The properties of what a call of `load` returns. -/
def LoadCall.answer (platform : Platform) : LoadCall → KBProgram (Option Properties)
  | .phrase stack parent key linkType => do
      let p ← AnnotatedPhrase.load platform stack parent key linkType
      return some ((← get).heap.exported (.phrase p))
  | .concept stack parent key linkType => do
      let c ← Concept.load platform stack parent key linkType
      let heap := (← get).heap
      return c.map fun c => heap.exported (.concept c)
  | .network stack parent key linkType => do
      let n ← ConceptNetwork.load platform stack parent key linkType
      return some ((← get).heap.exported (.network n))

/-- An operation on an open database. -/
def DatabaseOperation.onOpen (platform : Platform) : DatabaseOperation → KBProgram DatabaseAnswer
  | .saveResource child parent key linkType => do
      N4JKB.saveResource child parent key linkType
      return .done
  | .createLink parent child linkType key => do
      N4JKB.createLink parent child linkType key
      return .done
  | .loadChild parent key linkType => do
      return .child ((← get).kb.loadChild platform parent key linkType)
  | .loadChildrenList parent linkType => do
      return .children ((← get).kb.loadChildrenList platform parent linkType)
  | .loadChildrenMap parent linkType => do
      return .childrenMap ((← get).kb.loadChildrenMap platform parent linkType).entries
  | .save stack r parent key linkType => do
      saveAnew platform stack r parent key linkType
      return .done
  | .load call => do return .loaded (← call.answer platform)

/-- Run a program on the world of a process. -/
def DatabaseProcess.onWorld {α : Type} (program : KBProgram α) : DatabaseProgram α := fun p =>
  match program.run p.world with
  | .ok a world => .ok a { p with world }
  | .error failure world => .error failure { p with world }

section

variable (platform : Platform)
  (onShutDown : DatabaseOperation → KBProgram DatabaseAnswer)

/-- An operation asks `N4JKB` for the database, and runs on what it gets. -/
def DatabaseProcess.perform (op : DatabaseOperation) : DatabaseProgram DatabaseAnswer := do
  N4JKB.apply
  match (← get).graphDb with
  | some .running => DatabaseProcess.onWorld (op.onOpen platform)
  | some .shutDown => DatabaseProcess.onWorld (onShutDown op)
  | none => throw .nullPointerException

/-- The value or the exception with which a run ends. -/
def outcome {α σ : Type} : EStateM.Result KBFailure σ α → Except KBFailure α
  | .ok a _ => .ok a
  | .error failure _ => .error failure

/-- What operations return that run one after another. -/
def DatabaseProcess.answers : List DatabaseOperation → DatabaseProcess →
    List (Except KBFailure DatabaseAnswer)
  | [], _ => []
  | op :: rest, p =>
      outcome ((perform platform onShutDown op).run p) ::
        answers rest (finalState ((perform platform onShutDown op).run p))

/-- The database that `N4JKB` gives is open. -/
def DatabaseProcess.IsOpen (p : DatabaseProcess) : Prop :=
  (finalState (N4JKB.apply.run p)).graphDb = some .running

/-- The process after a history and a clean. -/
def DatabaseProcess.cleaned (blank : KB) (history : List DatabaseOperation)
    (p : DatabaseProcess) : DatabaseProcess :=
  finalState ((N4JKB.clean blank).run (runAll (perform platform onShutDown) history p))

/-- After the history and the clean the operations run on an open database, and return what
they return on a new knowledge base in a fresh process. -/
def CleaningResets (heap : Heap) (disk blank : KB) (history ops : List DatabaseOperation) : Prop :=
  let cleaned := DatabaseProcess.cleaned platform onShutDown blank history (.start heap disk)
  AllAllowed (DatabaseProcess.perform platform onShutDown) (fun p _ => p.IsOpen) ops cleaned ∧
    DatabaseProcess.answers platform onShutDown ops cleaned =
      DatabaseProcess.answers platform onShutDown ops (.start heap blank)

end

/-- The handle has been shut down, and the flag is set. -/
structure DatabaseProcess.IsShutDown (p : DatabaseProcess) : Prop where
  inited : p.inited = true
  graphDb : p.graphDb = some .shutDown

/-- Asking for the database changes nothing once the flag is set. -/
theorem N4JKB.run_apply_of_inited {p : DatabaseProcess} (inited : p.inited = true) :
    N4JKB.apply.run p = .ok () p := by
  simp only [N4JKB.apply, EStateM.run_bind, EStateM.run_get, inited, not_true_eq_false, if_false]
  rfl

theorem N4JKB.run_apply_of_not_inited {p : DatabaseProcess} (unused : p.inited = false) :
    N4JKB.apply.run p = .ok () { p with graphDb := some .running, inited := true } := by
  simp only [N4JKB.apply, EStateM.run_bind, EStateM.run_get, unused, Bool.false_eq_true,
    not_false_eq_true, if_true, EStateM.run_modify]

/-- The flag is set from the first use on. -/
theorem N4JKB.exists_run_apply (p : DatabaseProcess) :
    ∃ t, N4JKB.apply.run p = .ok () t ∧ t.inited = true ∧ t.world = p.world := by
  cases used : p.inited with
  | false => exact ⟨_, N4JKB.run_apply_of_not_inited used, rfl, rfl⟩
  | true => exact ⟨_, N4JKB.run_apply_of_inited used, used, rfl⟩

/-- The flag is set when there is a handle. -/
def DatabaseProcess.Consistent (p : DatabaseProcess) : Prop := p.graphDb ≠ none → p.inited = true

/-- A clean shuts the handle down for good, and leaves the table of objects. -/
theorem N4JKB.clean_spec (blank : KB) {p : DatabaseProcess} (consistent : p.Consistent) :
    (finalState ((N4JKB.clean blank).run p)).IsShutDown ∧
      (finalState ((N4JKB.clean blank).run p)).world = { p.world with kb := blank } := by
  -- when the handle is shut down the flag is set: a missing handle has been asked for
  have whole : ∃ t : DatabaseProcess, t.inited = true ∧ t.world = p.world ∧
      (N4JKB.clean blank).run p = N4JKB.apply.run
        { t with graphDb := some .shutDown, world := { t.world with kb := blank } } := by
    by_cases missing : p.graphDb = none
    · obtain ⟨t, opened, inited, world⟩ := N4JKB.exists_run_apply p
      refine ⟨t, inited, world, ?_⟩
      simp only [N4JKB.clean, EStateM.run_bind, EStateM.run_get, if_pos missing, opened,
        EStateM.run_modify]
    · refine ⟨p, consistent missing, rfl, ?_⟩
      simp only [N4JKB.clean, EStateM.run_bind, EStateM.run_get, if_neg missing,
        EStateM.run_modify]
  obtain ⟨t, inited, world, run⟩ := whole
  rw [run, N4JKB.run_apply_of_inited (by exact inited), finalState_ok]
  exact ⟨⟨inited, rfl⟩, congrArg (fun w : World => { w with kb := blank }) world⟩

/-- A program on the world leaves the variables of `N4JKB`. -/
theorem DatabaseProcess.finalState_onWorld {α : Type} (program : KBProgram α)
    (p : DatabaseProcess) :
    finalState ((onWorld program).run p) = { p with world := finalState (program.run p.world) } := by
  simp only [onWorld, EStateM.run]
  cases program p.world <;> rfl

section

variable {platform : Platform} {onShutDown : DatabaseOperation → KBProgram DatabaseAnswer}

/-- Every operation leaves the flag set. -/
theorem inited_perform (op : DatabaseOperation) (p : DatabaseProcess) :
    (finalState ((DatabaseProcess.perform platform onShutDown op).run p)).inited = true := by
  obtain ⟨t, opened, inited, -⟩ := N4JKB.exists_run_apply p
  simp only [DatabaseProcess.perform, EStateM.run_bind, opened, EStateM.run_get]
  match t.graphDb with
  | some .running => rw [DatabaseProcess.finalState_onWorld]; exact inited
  | some .shutDown => rw [DatabaseProcess.finalState_onWorld]; exact inited
  | none => exact inited

theorem consistent_runAll (history : List DatabaseOperation) {p : DatabaseProcess}
    (consistent : p.Consistent) :
    (runAll (DatabaseProcess.perform platform onShutDown) history p).Consistent := by
  induction history generalizing p with
  | nil => exact consistent
  | cons op rest ih => exact ih fun _ => inited_perform op p

/-- An operation on a handle that has been shut down leaves it so. -/
theorem isShutDown_perform (op : DatabaseOperation) {p : DatabaseProcess} (down : p.IsShutDown) :
    (finalState ((DatabaseProcess.perform platform onShutDown op).run p)).IsShutDown := by
  simp only [DatabaseProcess.perform, EStateM.run_bind, N4JKB.run_apply_of_inited down.inited,
    EStateM.run_get, down.graphDb]
  rw [DatabaseProcess.finalState_onWorld]
  exact ⟨down.inited, down.graphDb⟩

/-- A handle that was shut down stays so, and `N4JKB` opens no other one. -/
theorem isShutDown_runAll (ops : List DatabaseOperation) {p : DatabaseProcess}
    (down : p.IsShutDown) :
    (runAll (DatabaseProcess.perform platform onShutDown) ops p).IsShutDown := by
  induction ops generalizing p with
  | nil => exact down
  | cons op rest ih => exact ih (isShutDown_perform op down)

/-- The handle that `N4JKB` gives is the one that was shut down. -/
theorem DatabaseProcess.IsShutDown.not_isOpen {p : DatabaseProcess} (down : p.IsShutDown) :
    ¬ p.IsOpen := by
  rw [IsOpen, N4JKB.run_apply_of_inited down.inited, finalState_ok, down.graphDb]
  exact fun same => nomatch same

end

/-- After every history, a clean resets the knowledge base for exactly those operations that
are none: the handle that was shut down is the one that every later operation runs on, and
the table of objects is the one that the history left. -/
theorem cleaningResets_iff (platform : Platform)
    (onShutDown : DatabaseOperation → KBProgram DatabaseAnswer) (heap : Heap) (disk blank : KB)
    (history ops : List DatabaseOperation) :
    (CleaningResets platform onShutDown heap disk blank history ops ↔ ops = []) ∧
    (∀ later, ¬ (runAll (DatabaseProcess.perform platform onShutDown) later
      (DatabaseProcess.cleaned platform onShutDown blank history (.start heap disk))).IsOpen) ∧
    (DatabaseProcess.cleaned platform onShutDown blank history (.start heap disk)).world.id2object =
      (runAll (DatabaseProcess.perform platform onShutDown) history
        (.start heap disk)).world.id2object := by
  have consistent : (runAll (DatabaseProcess.perform platform onShutDown) history
      (.start heap disk)).Consistent := consistent_runAll history fun used => absurd rfl used
  obtain ⟨down, world⟩ := N4JKB.clean_spec blank consistent
  refine ⟨⟨fun resets => ?_, ?_⟩, fun later => (isShutDown_runAll later down).not_isOpen, ?_⟩
  · match ops with
    | [] => rfl
    | op :: rest => exact absurd resets.1.1 down.not_isOpen
  · rintro rfl
    exact ⟨trivial, rfl⟩
  · rw [DatabaseProcess.cleaned, world]

/-! ### A load after a clean -/

/-- A database that was shut down raises an exception. -/
def raisesWhenShutDown : DatabaseOperation → KBProgram DatabaseAnswer := fun _ =>
  throw (.exception "The database has been shutdown")

/-- The children of the reference node, after a clean with no history. -/
theorem load_after_clean :
    ¬ CleaningResets .plain raisesWhenShutDown {} .onlyRoot .onlyRoot []
      [.loadChildrenMap (some KB.rootId) defaultLinkName] := by
  rintro ⟨⟨opened, -⟩, -⟩
  have handle : (some .shutDown : Option DatabaseState) = some .running := opened
  cases handle

end ThinkingUnderstanding
