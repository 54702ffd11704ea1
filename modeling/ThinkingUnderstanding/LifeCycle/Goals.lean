import ThinkingUnderstanding.LifeCycle.ThinkingLifeCycle

/-!
# The goals of a work-flow

A `GoalManager` goes through a list of goals. Two of its methods move on to the next goal: the one
without a parameter, and the one for a context, unless the context asks for a goal of its own; that
one is returned, and the current goal stays what it was. The method for a goal looks up the goal
after it, and compares the index it has found with the size of the list.

The position is an `Int` and wraps around after `2 ^ 31` moves. A move to a negative position raises
an exception, and returns no goal; there is no current goal then, as there was none before. The size
of a list is an `Int` as well: a list too long for one can look shorter than it is, or empty.

## Main definitions

* `GoalManager.nextGoalAfter`, `GoalManager.resetIndex` — the other methods of `GoalManager`
* `GoalCall`, `GoalRun` — calls of the methods, and what they have announced
* `GoalRun.Coherent` — the current goal is the one that was announced
* `GoalCall.Agreed` — the calls that keep to the current goal, and to the list

## Main results

* `coherent_perform_iff` — the step
* `goals_coherent_iff` — a run is coherent exactly when its calls are agreed
-/

namespace ThinkingUnderstanding

namespace GoalManager

variable (manager : GoalManager)

/-- `GoalManager.nextGoal(currentGoal)`. -/
def nextGoalAfter (currentGoal : Goal) : Except IndexOutOfBounds (Option Goal) :=
  if currentGoal ∉ manager.targetGoals then
    .ok none
  else
    let index := .ofNat (manager.targetGoals.idxOf currentGoal) + 1
    if manager.size < index then .ok none else some <$> manager.goalAt index

/-- `GoalManager.resetIndex`. -/
def resetIndex : GoalManager := { manager with currentIndex := 0 }

/-- The list is not taken for an empty one: its size is positive when there are goals. -/
def Counted : Prop := manager.targetGoals ≠ [] → 0 < manager.size

variable {manager} {goal : Goal} {index : Int32}

/-- A position before another one can be counted up. -/
theorem toInt_add_one {i j : Int32} (less : i < j) : (i + 1).toInt = i.toInt + 1 := by
  have low := i.le_toInt
  have high := j.toInt_lt
  have one : (1 : Int32).toInt = 1 := rfl
  rw [Int32.lt_iff_toInt_lt] at less
  rw [Int32.toInt_add, one, Int.bmod_eq_of_le (by omega) (by omega)]

theorem toNatClampNeg_add_one {i j : Int32} (nonneg : 0 ≤ i) (less : i < j) :
    (i + 1).toNatClampNeg = i.toNatClampNeg + 1 := by
  have here := Int32.cast_toNatClampNeg i nonneg
  rw [← Int32.toNat_toInt, toInt_add_one less]
  omega

/-- Positions that are not negative are in the order of their natural numbers. -/
theorem toNatClampNeg_lt {i j : Int32} (nonneg : 0 ≤ i) (less : i < j) :
    i.toNatClampNeg < j.toNatClampNeg := by
  have here := Int32.cast_toNatClampNeg i nonneg
  have there := Int32.cast_toNatClampNeg j (Int32.le_trans nonneg (Int32.le_of_lt less))
  rw [Int32.lt_iff_toInt_lt] at less
  omega

/-- The size is at most the number of goals. -/
theorem toNatClampNeg_size_le : manager.size.toNatClampNeg ≤ manager.targetGoals.length := by
  by_cases fits : manager.targetGoals.length < 2 ^ 31
  · exact (Int32.toNatClampNeg_ofNat_of_lt fits).le
  · exact (Int32.toNatClampNeg_lt _).le.trans (Nat.le_of_not_lt fits)

theorem goalAt_eq_ok_iff : manager.goalAt index = .ok goal ↔
    0 ≤ index ∧ manager.targetGoals[index.toNatClampNeg]? = some goal := by
  unfold goalAt
  split_ifs with negative
  · exact iff_of_false (fun returned => nomatch returned)
      fun ⟨nonneg, _⟩ => (Int32.not_lt.mpr nonneg) negative
  · rw [and_iff_right (Int32.not_lt.mp negative)]
    cases manager.targetGoals[index.toNatClampNeg]? with
    | none => exact iff_of_false (fun returned => nomatch returned) fun found => nomatch found
    | some other => simp only [Except.ok.injEq, Option.some.injEq]

theorem currentGoal_eq_none (outside : manager.size ≤ manager.currentIndex ∨
    manager.currentIndex < 0) : manager.currentGoal = none := if_pos outside

/-- The current goal stands before the size of the list. -/
theorem of_currentGoal_eq_some (current : manager.currentGoal = some goal) :
    0 ≤ manager.currentIndex ∧ manager.currentIndex < manager.size ∧
      manager.targetGoals[manager.currentIndex.toNatClampNeg]? = some goal := by
  unfold currentGoal at current
  split_ifs at current with outside
  obtain ⟨inside, nonneg⟩ := not_or.mp outside
  exact ⟨Int32.not_lt.mp nonneg, Int32.not_le.mp inside, current⟩

end GoalManager

/-- A call of a method of a `GoalManager`. -/
inductive GoalCall (C P : Type)
  | nextGoal
  | nextGoalIn (inputContext : ShortTermMemory C P)
  | nextGoalAfter (currentGoal : Goal)
  | resetIndex

/-- A manager, and the goal that was announced last: the first one, in the beginning and after a
reset, and later the one that was returned. -/
structure GoalRun where
  manager : GoalManager
  announced : Option Goal

namespace GoalRun

/-- `new GoalManager(targetGoals)`. -/
def start (targetGoals : List Goal) : GoalRun := ⟨{ targetGoals }, targetGoals.head?⟩

/-- The run after a move: what was returned is announced, and an exception announces nothing. -/
def moved (run : GoalRun) : Except IndexOutOfBounds (Option Goal) × GoalManager → GoalRun
  | (.ok goal, manager) => ⟨manager, goal⟩
  | (.error _, manager) => ⟨manager, run.announced⟩

/-- The current goal is the one that was announced. -/
def Coherent (run : GoalRun) : Prop := run.manager.currentGoal = run.announced

end GoalRun

namespace GoalCall

variable {C P : Type}

/-- The run after a call. Looking up the goal after another one announces nothing. -/
def perform (run : GoalRun) : GoalCall C P → GoalRun
  | nextGoal => run.moved run.manager.nextTargetGoal
  | nextGoalIn inputContext => run.moved (run.manager.nextGoal inputContext)
  | nextGoalAfter _ => run
  | resetIndex => ⟨run.manager.resetIndex, run.manager.targetGoals.head?⟩

/-- The run after several calls. -/
def performAll (calls : List (GoalCall C P)) (run : GoalRun) : GoalRun := calls.foldl perform run

/-- What a call returns is what it should: the method for a goal returns the one after it,
and nothing for the last one and for one that is not in the list. -/
def Answers (manager : GoalManager) : GoalCall C P → Prop
  | nextGoalAfter goal =>
      ∃ next, manager.nextGoalAfter goal = .ok next ∧
        (∀ i : ℕ, manager.targetGoals[i]? = some goal → next = manager.targetGoals[i + 1]?) ∧
        (goal ∉ manager.targetGoals → next = none)
  | _ => True

/-- A context asks for no goal, or for the current one; and a goal whose successor is looked
up is not the last one, and not behind the size of the list. No goal is behind the size when there
are less than `2 ^ 31`. -/
def Agreed (manager : GoalManager) : GoalCall C P → Prop
  | nextGoalIn inputContext =>
      ∀ goal, inputContext.nextGoal = some goal → manager.currentGoal = some goal
  | nextGoalAfter goal => manager.targetGoals.getLast? ≠ some goal ∧
      goal ∉ manager.targetGoals.drop manager.size.toNatClampNeg
  | _ => True

end GoalCall

section Step

variable {C P : Type} {manager : GoalManager} {run : GoalRun} {goal : Goal}

theorem manager_moved (run : GoalRun) (move : Except IndexOutOfBounds (Option Goal) × GoalManager) :
    (run.moved move).manager = move.2 := by
  obtain ⟨returned, manager⟩ := move
  cases returned with
  | error e => rfl
  | ok goal => rfl

theorem targetGoals_perform (call : GoalCall C P) (run : GoalRun) :
    (call.perform run).manager.targetGoals = run.manager.targetGoals := by
  cases call with
  | nextGoal => rw [GoalCall.perform, manager_moved]; rfl
  | nextGoalIn inputContext =>
    rw [GoalCall.perform, manager_moved, GoalManager.nextGoal]
    cases inputContext.nextGoal with
    | none => rfl
    | some goal => rfl
  | nextGoalAfter goal => rfl
  | resetIndex => rfl

/-- The first goal is current in a new manager exactly when the list is not taken for an empty
one. -/
theorem coherent_start_iff (manager : GoalManager) :
    GoalRun.Coherent ⟨manager.resetIndex, manager.targetGoals.head?⟩ ↔ manager.Counted := by
  have first : manager.resetIndex.currentGoal =
      if manager.size ≤ 0 then none else manager.targetGoals.head? := by
    rw [List.head?_eq_getElem?]
    exact if_congr (or_iff_left Int32.lt_irrefl) rfl rfl
  rw [GoalRun.Coherent, first]
  unfold GoalManager.Counted
  cases manager.targetGoals with
  | nil => exact iff_of_true (ite_self none) fun some => absurd rfl some
  | cons goal rest =>
    rw [← Int32.not_le]
    split_ifs with empty
    · exact iff_of_false (fun same => nomatch same) fun counted =>
      counted (List.cons_ne_nil _ _) empty
    · exact iff_of_true rfl fun _ => empty

/-- A move to a position that is not negative returns the goal that is current then. -/
theorem fst_nextTargetGoal (nonneg : 0 ≤ manager.currentIndex + 1) :
    manager.nextTargetGoal.1 = .ok manager.nextTargetGoal.2.currentGoal := by
  by_cases beyond : manager.size ≤ manager.currentIndex + 1
  · have ended : manager.nextTargetGoal.2.currentGoal = none :=
      GoalManager.currentGoal_eq_none (.inl beyond)
    rw [ended]
    exact if_pos beyond
  · have before := (GoalManager.toNatClampNeg_lt nonneg (Int32.not_le.mp beyond)).trans_le
      GoalManager.toNatClampNeg_size_le
    have found := List.getElem?_eq_getElem before
    have current : manager.nextTargetGoal.2.currentGoal = some _ :=
      (if_neg (not_or.mpr ⟨beyond, Int32.not_lt.mpr nonneg⟩)).trans found
    have returned : manager.nextTargetGoal.2.goalAt (manager.currentIndex + 1) = .ok _ :=
      GoalManager.goalAt_eq_ok_iff.mpr ⟨nonneg, found⟩
    rw [current]
    exact (if_neg beyond).trans (congrArg (some <$> ·) returned)

/-- From a goal the manager does not move to a negative position. -/
theorem nonneg_of_currentGoal (current : manager.currentGoal = some goal) :
    0 ≤ manager.currentIndex + 1 := by
  obtain ⟨nonneg, inside, -⟩ := GoalManager.of_currentGoal_eq_some current
  rw [Int32.le_iff_toInt_le, Int32.toInt_zero] at nonneg ⊢
  rw [GoalManager.toInt_add_one inside]
  omega

/-- From a goal the manager moves on without an exception. -/
theorem exists_nextGoal_eq (current : manager.currentGoal = some goal)
    (inputContext : ShortTermMemory C P) :
    ∃ next, manager.nextGoal inputContext = (.ok next, (manager.nextGoal inputContext).2) := by
  rw [GoalManager.nextGoal]
  cases inputContext.nextGoal with
  | some goal => exact ⟨some goal, rfl⟩
  | none => exact ⟨_, Prod.ext (fst_nextTargetGoal (nonneg_of_currentGoal current)) rfl⟩

/-- A move announces the goal that is current then. -/
theorem coherent_nextTargetGoal (coherent : run.Coherent) :
    (run.moved run.manager.nextTargetGoal).Coherent := by
  by_cases nonneg : 0 ≤ run.manager.currentIndex + 1
  · have same : run.manager.nextTargetGoal =
        (.ok run.manager.nextTargetGoal.2.currentGoal, run.manager.nextTargetGoal.2) :=
      Prod.ext (fst_nextTargetGoal nonneg) rfl
    rw [same]
    rfl
  · -- there was no current goal, and there is none
    have before : run.announced = none := by
      rw [← show run.manager.currentGoal = run.announced from coherent]
      cases current : run.manager.currentGoal with
      | none => rfl
      | some goal => exact absurd (nonneg_of_currentGoal current) nonneg
    have after : run.manager.nextTargetGoal.2.currentGoal = none :=
      GoalManager.currentGoal_eq_none (.inr (Int32.not_le.mp nonneg))
    rw [GoalRun.Coherent, manager_moved, after]
    unfold GoalManager.nextTargetGoal
    dsimp only
    split_ifs with beyond
    · rfl
    · rw [GoalManager.goalAt, if_pos (Int32.not_le.mp nonneg)]
      exact before.symm

/-- A goal of the list stands at one position. -/
theorem eq_idxOf_of_getElem? (distinct : manager.targetGoals.Nodup) {i : ℕ}
    (found : manager.targetGoals[i]? = some goal) : i = manager.targetGoals.idxOf goal := by
  obtain ⟨bound, same⟩ := List.getElem?_eq_some_iff.mp found
  rw [← same, distinct.idxOf_getElem]

/-- The condition on a goal of the list, in terms of its position. -/
theorem agreed_nextGoalAfter_iff (distinct : manager.targetGoals.Nodup)
    (present : goal ∈ manager.targetGoals) :
    (GoalCall.nextGoalAfter goal : GoalCall C P).Agreed manager ↔
      manager.targetGoals.idxOf goal + 1 < manager.targetGoals.length ∧
        manager.targetGoals.idxOf goal < manager.size.toNatClampNeg := by
  have inside := List.idxOf_lt_length_iff.mpr present
  have here := List.getElem?_idxOf present
  refine and_congr ?_ ?_
  · rw [List.getLast?_eq_getElem?]
    constructor
    · intro other
      by_contra last
      have same : manager.targetGoals.length - 1 = manager.targetGoals.idxOf goal := by omega
      exact other (same ▸ here)
    · intro before last
      have same := eq_idxOf_of_getElem? distinct last
      omega
  · rw [← not_le, not_iff_not, List.mem_drop_iff_getElem]
    constructor
    · rintro ⟨i, bound, same⟩
      have found := eq_idxOf_of_getElem? distinct (List.getElem?_eq_some_iff.mpr ⟨_, same⟩)
      omega
    · intro behind
      refine ⟨manager.targetGoals.idxOf goal - manager.size.toNatClampNeg, by omega, ?_⟩
      have same : manager.size.toNatClampNeg +
          (manager.targetGoals.idxOf goal - manager.size.toNatClampNeg) =
            manager.targetGoals.idxOf goal := by omega
      simp only [same, List.getElem_idxOf]

/-- The goal after another one is found, unless that is the last one, or behind the size. -/
theorem answers_nextGoalAfter_iff (distinct : manager.targetGoals.Nodup)
    (counted : manager.Counted) :
    (GoalCall.nextGoalAfter goal : GoalCall C P).Answers manager ↔
      (GoalCall.nextGoalAfter goal : GoalCall C P).Agreed manager := by
  by_cases present : goal ∈ manager.targetGoals
  · rw [agreed_nextGoalAfter_iff distinct present]
    have inside := List.idxOf_lt_length_iff.mpr present
    have here := List.getElem?_idxOf present
    have positive := counted (List.ne_nil_of_mem present)
    have index : (.ofNat (manager.targetGoals.idxOf goal) + 1 : Int32) =
        .ofNat (manager.targetGoals.idxOf goal + 1) := (Int32.ofNat_add _ 1).symm
    have called : manager.nextGoalAfter goal =
        if manager.size < .ofNat (manager.targetGoals.idxOf goal + 1) then .ok none
        else some <$> manager.goalAt (.ofNat (manager.targetGoals.idxOf goal + 1)) := by
      rw [GoalManager.nextGoalAfter, if_neg (not_not.mpr present), index]
    constructor
    · rintro ⟨next, returned, after, -⟩
      rw [called] at returned
      have follows := after _ here
      split_ifs at returned with beyond
      · -- nothing stands behind the last goal only, whose index is the size
        cases returned
        have last : manager.targetGoals.idxOf goal + 1 = manager.targetGoals.length :=
          le_antisymm inside (List.getElem?_eq_none_iff.mp follows.symm)
        rw [last] at beyond
        exact absurd beyond Int32.lt_irrefl
      · cases looked : manager.goalAt (.ofNat (manager.targetGoals.idxOf goal + 1)) with
        | error e =>
          rw [looked] at returned
          cases returned
        | ok found =>
          rw [looked] at returned
          cases returned
          obtain ⟨nonneg, there⟩ := GoalManager.goalAt_eq_ok_iff.mp looked
          have same := (eq_idxOf_of_getElem? distinct there).trans
            (eq_idxOf_of_getElem? distinct follows.symm).symm
          have before := (List.getElem?_eq_some_iff.mp follows.symm).1
          have within := Int32.toNatClampNeg_le (Int32.not_lt.mp beyond)
          omega
    · rintro ⟨before, within⟩
      have small : manager.targetGoals.idxOf goal + 1 < 2 ^ 31 :=
        Nat.lt_of_le_of_lt within (Int32.toNatClampNeg_lt _)
      have position := Int32.toNatClampNeg_ofNat_of_lt small
      have nonneg := Int32.zero_le_ofNat_of_lt small
      have reached : ¬ manager.size < .ofNat (manager.targetGoals.idxOf goal + 1) := by
        intro beyond
        have less := GoalManager.toNatClampNeg_lt (Int32.le_of_lt positive) beyond
        omega
      have found := List.getElem?_eq_getElem before
      have looked := GoalManager.goalAt_eq_ok_iff.mpr
        ⟨nonneg, (congrArg (manager.targetGoals[·]?) position).trans found⟩
      refine ⟨some manager.targetGoals[manager.targetGoals.idxOf goal + 1], ?_, ?_, ?_⟩
      · rw [called, if_neg reached, looked]
        rfl
      · intro i same
        rw [eq_idxOf_of_getElem? distinct same, found]
      · exact fun absent => absurd present absent
  · refine iff_of_true ⟨none, ?_, ?_, fun _ => rfl⟩ ⟨?_, ?_⟩
    · rw [GoalManager.nextGoalAfter, if_pos present]
    · exact fun i found => absurd (List.mem_of_getElem? found) present
    · exact fun last => present (List.mem_of_getLast? last)
    · exact fun behind => present (List.mem_of_mem_drop behind)

/-- A call keeps a run coherent, and is answered, exactly when it is agreed. -/
theorem coherent_perform_iff (distinct : run.manager.targetGoals.Nodup)
    (counted : run.manager.Counted) (coherent : run.Coherent) (call : GoalCall C P) :
    (call.perform run).Coherent ∧ call.Answers run.manager ↔ call.Agreed run.manager := by
  cases call with
  | nextGoal => exact iff_of_true ⟨coherent_nextTargetGoal coherent, trivial⟩ trivial
  | nextGoalIn inputContext =>
    simp only [GoalCall.perform, GoalManager.nextGoal, GoalCall.Answers, GoalCall.Agreed, and_true]
    cases asked : inputContext.nextGoal with
    | none =>
      exact iff_of_true (coherent_nextTargetGoal coherent) fun goal none => nomatch none
    | some goal =>
      constructor
      · intro current goal' same
        exact current.trans same
      · exact fun agreed => agreed goal rfl
  | nextGoalAfter goal =>
    have kept : ((GoalCall.nextGoalAfter goal : GoalCall C P).perform run).Coherent := coherent
    rw [and_iff_right kept]
    exact answers_nextGoalAfter_iff distinct counted
  | resetIndex => exact iff_of_true ⟨(coherent_start_iff _).mpr counted, trivial⟩ trivial

end Step

section Run

variable {C P : Type}

theorem performAll_concat (calls : List (GoalCall C P)) (call : GoalCall C P) (run : GoalRun) :
    GoalCall.performAll (calls ++ [call]) run = call.perform (GoalCall.performAll calls run) :=
  List.foldl_concat ..

theorem targetGoals_performAll (calls : List (GoalCall C P)) (run : GoalRun) :
    (GoalCall.performAll calls run).manager.targetGoals = run.manager.targetGoals := by
  induction calls using List.reverseRecOn with
  | nil => rfl
  | append_singleton calls call ih => rw [performAll_concat, targetGoals_perform, ih]

/-- In a run of calls that starts with a new manager, the current goal is always the one that was
announced, and every call is answered, exactly when the list is not taken for an empty one, and all
calls are agreed. -/
theorem goals_coherent_iff (targetGoals : List Goal) (distinct : targetGoals.Nodup)
    (calls : List (GoalCall C P)) :
    (∀ done, done <+: calls → (GoalCall.performAll done (.start targetGoals)).Coherent) ∧
      (∀ done call, done ++ [call] <+: calls →
        call.Answers (GoalCall.performAll done (.start targetGoals)).manager) ↔
    GoalManager.Counted { targetGoals } ∧ ∀ done call, done ++ [call] <+: calls →
      call.Agreed (GoalCall.performAll done (.start targetGoals)).manager := by
  have distinct' : ∀ done : List (GoalCall C P),
      (GoalCall.performAll done (.start targetGoals)).manager.targetGoals.Nodup := by
    intro done
    rw [targetGoals_performAll]
    exact distinct
  have counted' : GoalManager.Counted { targetGoals } → ∀ done : List (GoalCall C P),
      (GoalCall.performAll done (.start targetGoals)).manager.Counted := by
    intro counted done
    rw [GoalManager.Counted, GoalManager.size, targetGoals_performAll]
    exact counted
  constructor
  · rintro ⟨coherent, answers⟩
    have counted : GoalManager.Counted { targetGoals } :=
      (coherent_start_iff { targetGoals }).mp (coherent [] List.nil_prefix)
    refine ⟨counted, fun done call longer => ?_⟩
    refine (coherent_perform_iff (distinct' done) (counted' counted done)
      (coherent done ((List.prefix_append done [call]).trans longer)) call).mp
      ⟨?_, answers done call longer⟩
    rw [← performAll_concat]
    exact coherent _ longer
  · rintro ⟨counted, agreed⟩
    have coherent : ∀ done, done <+: calls →
        (GoalCall.performAll done (.start targetGoals)).Coherent := by
      intro done
      -- on the calls from the first one, as each starts where those before it have ended
      induction done using List.reverseRecOn with
      | nil => exact fun _ => (coherent_start_iff { targetGoals }).mpr counted
      | append_singleton done call ih =>
        intro longer
        have before := ih ((List.prefix_append done [call]).trans longer)
        rw [performAll_concat]
        exact ((coherent_perform_iff (distinct' done) (counted' counted done) before call).mpr
          (agreed done call longer)).1
    refine ⟨coherent, fun done call longer => ?_⟩
    exact ((coherent_perform_iff (distinct' done) (counted' counted done)
      (coherent done ((List.prefix_append done [call]).trans longer)) call).mpr
        (agreed done call longer)).2

/-- The goals of a work-flow that classifies a request and then clarifies it. -/
def twoGoals : List Goal := [⟨0, "Classify"⟩, ⟨1, "Clarify"⟩]

theorem twoGoals_coherent_iff :
    (∀ done, done <+: [GoalCall.nextGoal, .nextGoalAfter ⟨1, "Clarify"⟩] →
        (GoalCall.performAll (C := ConceptRef) (P := PhraseRef) done (.start twoGoals)).Coherent) ∧
      (∀ done call, done ++ [call] <+: [GoalCall.nextGoal, .nextGoalAfter ⟨1, "Clarify"⟩] →
        call.Answers (GoalCall.performAll (C := ConceptRef) (P := PhraseRef) done
          (.start twoGoals)).manager) ↔
    GoalManager.Counted { targetGoals := twoGoals } ∧
    ∀ done call, done ++ [call] <+: [GoalCall.nextGoal, .nextGoalAfter ⟨1, "Clarify"⟩] →
      call.Agreed (GoalCall.performAll (C := ConceptRef) (P := PhraseRef) done
        (.start twoGoals)).manager :=
  goals_coherent_iff twoGoals (by decide) _

/-- The goal after the last one is looked up behind the end of the list. -/
theorem last_goal_throws :
    ¬ ((∀ done, done <+: [GoalCall.nextGoal, .nextGoalAfter ⟨1, "Clarify"⟩] →
        (GoalCall.performAll (C := ConceptRef) (P := PhraseRef) done (.start twoGoals)).Coherent) ∧
      (∀ done call, done ++ [call] <+: [GoalCall.nextGoal, .nextGoalAfter ⟨1, "Clarify"⟩] →
        call.Answers (GoalCall.performAll (C := ConceptRef) (P := PhraseRef) done
          (.start twoGoals)).manager)) := by
  rintro ⟨-, answers⟩
  obtain ⟨next, returned, -⟩ := answers [.nextGoal] (.nextGoalAfter ⟨1, "Clarify"⟩)
    (List.prefix_refl _)
  cases returned

end Run

end ThinkingUnderstanding
