import ThinkingUnderstanding.Persistence.SaveResults
import ThinkingUnderstanding.Semantics.Forgetting

/-!
# Saves with and without results

`N4JKB` returns `true` from every operation that returns. When the results and the record of the
operations are forgotten, a save of a concept, a phrase, a link or a network that
is made with it is the save as it is modelled without results.

## Main definitions

* `KBService.n4jkb` — `N4JKB` as an implementation of the trait

## Main results

* `Reporting.forgets_save` — a save, when the results are forgotten
-/

namespace ThinkingUnderstanding

open Math Semantics

/-- `export`, as the properties a resource is stored with. -/
def IssueStore.exported (store : IssueStore) (heap : Heap) : SavedResource → Properties
  | .graph r => heap.exported r
  | .sentence x => heap.exportedSentence x
  | .narrative n => heap.exportedNarrative n
  | .solvedIssue i =>
      Heap.exportedResource (heap.uri (store.solvedIssue i).uri) (store.solvedIssue i).probability
  | .solution i =>
      Heap.exportedResource (heap.uri (store.solution i).uri) (store.solution i).probability
  | .howTo i => Heap.exportedResource (heap.uri (store.howTo i).uri) (store.howTo i).probability
  | .frame i => Heap.exportedResource (heap.uri (store.frame i).uri) (store.frame i).probability
  | .plain _ properties => properties

/-- `N4JKB`, as an implementation of the trait `KB`. Its `saveResource` returns `true`, or raises
an exception. -/
def KBService.n4jkb (store : IssueStore) : KBService where
  saveResource child parent key linkType := do
    match child with
    | .graph r => N4JKB.saveResource r parent key linkType
    | _ =>
        let u := store.uriRef (← get).heap child
        N4JKB.saveExported u (store.exported · child) parent key linkType
    return true
  createLink parent child linkType key := do
    N4JKB.createLink parent child linkType key
    return true

namespace Reporting

/-- Without the record and the result. -/
def Unreported {α : Type} (p : SaveProgram α) (q : KBProgram Unit) : Prop :=
  Forgets RecordedWorld.toWorld (fun _ => ()) p q

variable {platform : Platform} {store : IssueStore} {callers : List CallSite} {parent : Option ℕ}
  {key linkType : String}

theorem forgets_unrecorded {α : Type} (p : KBProgram α) :
    Forgets RecordedWorld.toWorld id (unrecorded p) p :=
  (onPart_unrecorded p).forgets fun _ _ => rfl

/-- A method that returns one value is recorded. -/
theorem unreported_unrecorded {α : Type} (a : α) (q : KBProgram Unit) :
    Unreported (unrecorded (do q; return a)) q := by
  intro s
  cases run : q.run s.toWorld with
  | ok b w =>
    have whole : (q >>= fun _ => (pure a : KBProgram α)).run s.toWorld = .ok a w := by
      rw [EStateM.run_bind, run]
      rfl
    rw [(onPart_unrecorded _).run_of_ok whole]
    rfl
  | error e w =>
    have whole : (q >>= fun _ => (pure a : KBProgram α)).run s.toWorld = .error e w := by
      rw [EStateM.run_bind, run]
    rw [(onPart_unrecorded _).run_of_error whole]
    rfl

/-- A node is stored and noted. -/
theorem unreported_saveResource (r : ResourceRef) :
    Unreported (saveResource (.n4jkb store) callers (.graph r) parent key linkType)
      (N4JKB.saveResource r parent key linkType) :=
  fun _ => rfl

theorem unreported_createLink {child : Option ℕ} :
    Unreported (createLink (.n4jkb store) callers parent child linkType key)
      (N4JKB.createLink parent child linkType key) :=
  (unreported_unrecorded true _).bind_unseen fun _ _ => rfl

theorem forgets_checkIfSaved {refObject : Option ℕ} {uid : String} :
    Forgets RecordedWorld.toWorld id
      (checkIfSaved (.n4jkb store) callers parent key linkType refObject uid)
      (ThinkingUnderstanding.checkIfSaved parent key linkType refObject uid) := by
  unfold checkIfSaved ThinkingUnderstanding.checkIfSaved
  split
  · exact .pure rfl
  · refine Forgets.get_bind fun s => ?_
    split
    · exact unreported_createLink.bind fun _ => .pure rfl
    · exact fun _ => rfl

section Save

variable {save : Saver} {saveBare : ThinkingUnderstanding.Saver}
  (alike : ∀ callers r parent key linkType,
    Unreported (save callers (.graph r) parent key linkType) (saveBare r parent key linkType))

include alike

/-- A turn of a loop. -/
theorem unreported_saveInto (r : ResourceRef) (res : Bool) (child : Child) :
    Unreported (saveInto save callers .child (KBMap.get r) res
        { resource := .graph child.resource, key := child.keyText platform
          linkType := child.linkType })
      (saveChild platform saveBare r child) := by
  refine (forgets_unrecorded _).bind fun this => (forgets_unrecorded _).bind fun key => ?_
  exact (alike _ _ _ _ _).bind_unseen fun _ => .pure rfl

theorem unreported_saveWithChildren (children : Heap → List Child) (r : ResourceRef) :
    Unreported
      (saveWithChildren platform (.n4jkb store) save children callers r parent key linkType)
      (ThinkingUnderstanding.saveWithChildren platform saveBare children r parent key
        linkType) := by
  refine (forgets_unrecorded _).bind fun refObject => Forgets.get_bind fun s => ?_
  refine forgets_checkIfSaved.bind fun known => ?_
  cases known with
  | true => exact .pure rfl
  | false =>
    refine (unreported_saveResource r).bind fun res => (forgets_unrecorded _).bind fun _ => ?_
    refine Forgets.get_bind fun s => ?_
    exact Forgets.foldlM _ _ (fun res child _ => unreported_saveInto alike r res child) res

end Save

/-- With `N4JKB`, a save is the one without results. -/
theorem forgets_save (platform : Platform) (store : IssueStore) (stack : ℕ)
    (callers : List CallSite) (r : ResourceRef) (parent : Option ℕ) (key linkType : String) :
    Unreported (save platform (.n4jkb store) store stack callers (.graph r) parent key linkType)
      (ThinkingUnderstanding.save platform stack r parent key linkType) := by
  induction stack generalizing callers r parent key linkType with
  | zero => exact Forgets.throw _
  | succ stack ih =>
    change Unreported (saveWith platform (.n4jkb store) store _ callers (.graph r) parent key
      linkType) _
    unfold saveWith
    cases r with
    | concept c => exact unreported_saveWithChildren ih _ _
    | phrase p => exact unreported_saveWithChildren ih _ _
    | network n => exact unreported_saveWithChildren ih _ _
    | link l => exact unreported_saveResource _

end Reporting

end ThinkingUnderstanding
