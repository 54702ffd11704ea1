import Mathlib.Order.Lattice
import Mathlib.Data.List.Basic

/-!
# Intervals that are kept apart

A list of intervals is kept ordered and without overlaps: a new interval is put where it fits
between two neighbours, and is dropped when it overlaps one that is there. An interval is any value
with a first and a last point, the last one lying behind it.

## Main definitions

* `insertApart` — the insertion, by a walk that knows where the interval before ends
* `Apart` — the intervals are ordered and do not overlap

## Main results

* `apart_foldl_insertApart` — they stay apart
* `mem_insertApart` — a new interval is there unless it overlaps
* `covered_foldl_insertApart` — every interval that has been offered overlaps one that is kept
-/

namespace Math

variable {α ι : Type*} [LinearOrder ι] (first last : α → ι)

/-- Insertion of `x` into intervals, behind one that ends at `lower`. -/
def insertApart (x : α) : ι → List α → List α
  | _, [] => [x]
  | lower, e :: es =>
      if lower ≤ first x ∧ last x ≤ first e then x :: e :: es
      else if first x < last e then e :: es
      else e :: insertApart x (last e) es

/-- The intervals behind `lower` are ordered and do not overlap. -/
def Apart : ι → List α → Prop
  | _, [] => True
  | lower, e :: es => lower ≤ first e ∧ first e < last e ∧ Apart (last e) es

/-- Two intervals have a point in common. -/
def Overlaps (x e : α) : Prop := first x < last e ∧ first e < last x

variable {first last} {x y : α} {lower lower' : ι} {es : List α}

theorem apart_nil : Apart first last lower [] := trivial

/-- All intervals start behind the lower bound. -/
theorem Apart.le_first (apart : Apart first last lower es) : ∀ e ∈ es, lower ≤ first e := by
  induction es generalizing lower with
  | nil => exact fun _ member => absurd member List.not_mem_nil
  | cons e es ih =>
    obtain ⟨here, proper, later⟩ := apart
    intro e' member
    rcases List.mem_cons.mp member with rfl | member
    · exact here
    · exact (here.trans proper.le).trans (ih later e' member)

theorem Apart.proper (apart : Apart first last lower es) : ∀ e ∈ es, first e < last e := by
  induction es generalizing lower with
  | nil => exact fun _ member => absurd member List.not_mem_nil
  | cons e es ih =>
    intro e' member
    rcases List.mem_cons.mp member with rfl | member
    · exact apart.2.1
    · exact ih apart.2.2 e' member

theorem Apart.insertApart (apart : Apart first last lower es) (behind : lower ≤ first x)
    (proper : first x < last x) : Apart first last lower (insertApart first last x lower es) := by
  induction es generalizing lower with
  | nil => exact ⟨behind, proper, trivial⟩
  | cons e es ih =>
    obtain ⟨here, within, later⟩ := apart
    rw [Math.insertApart]
    split_ifs with fits overlaps
    · exact ⟨behind, proper, fits.2, within, later⟩
    · exact ⟨here, within, later⟩
    · exact ⟨here, within, ih later (not_lt.mp overlaps)⟩

/-- The new interval is there unless it overlaps one that is there. -/
theorem mem_insertApart (apart : Apart first last lower es) (behind : lower ≤ first x) :
    y ∈ insertApart first last x lower es ↔
      y ∈ es ∨ (y = x ∧ ∀ e ∈ es, ¬ Overlaps first last x e) := by
  induction es generalizing lower with
  | nil => simp [Math.insertApart]
  | cons e es ih =>
    obtain ⟨here, within, later⟩ := apart
    rw [Math.insertApart]
    split_ifs with fits overlaps
    · have free : ∀ e' ∈ e :: es, ¬ Overlaps first last x e' := by
        intro e' member overlap
        have start : first e ≤ first e' := by
          rcases List.mem_cons.mp member with rfl | member
          · exact le_rfl
          · exact within.le.trans (later.le_first e' member)
        exact absurd (fits.2.trans start) (not_le.mpr overlap.2)
      rw [List.mem_cons, or_comm]
      exact or_congr_right ⟨fun same => ⟨same, free⟩, fun new => new.1⟩
    · have overlap : Overlaps first last x e :=
        ⟨overlaps, not_le.mp fun before => fits ⟨behind, before⟩⟩
      refine ⟨Or.inl, fun member => member.resolve_right fun new => ?_⟩
      exact new.2 e List.mem_cons_self overlap
    · have apartHere : ¬ Overlaps first last x e := fun overlap => overlaps overlap.1
      rw [List.mem_cons, ih later (not_lt.mp overlaps), List.mem_cons, List.forall_mem_cons,
        or_assoc]
      refine or_congr_right (or_congr_right (and_congr_right fun _ => ?_))
      exact ⟨fun rest => ⟨apartHere, rest⟩, fun all => all.2⟩

/-! ### One insertion after another -/

section Fold

variable {lower : ι} {xs : List α}

theorem apart_foldl_insertApart (apart : Apart first last lower es)
    (behind : ∀ x ∈ xs, lower ≤ first x) (proper : ∀ x ∈ xs, first x < last x) :
    Apart first last lower (xs.foldl (fun es x => insertApart first last x lower es) es) := by
  induction xs generalizing es with
  | nil => exact apart
  | cons x xs ih =>
    rw [List.forall_mem_cons] at behind proper
    exact ih (apart.insertApart behind.1 proper.1) behind.2 proper.2

/-- What is there stays there, and what is there has been offered. -/
theorem mem_foldl_insertApart (apart : Apart first last lower es)
    (behind : ∀ x ∈ xs, lower ≤ first x) (proper : ∀ x ∈ xs, first x < last x) :
    (∀ y ∈ es, y ∈ xs.foldl (fun es x => insertApart first last x lower es) es) ∧
      ∀ y ∈ xs.foldl (fun es x => insertApart first last x lower es) es, y ∈ es ∨ y ∈ xs := by
  induction xs generalizing es with
  | nil => exact ⟨fun _ member => member, fun _ => Or.inl⟩
  | cons x xs ih =>
    rw [List.forall_mem_cons] at behind proper
    have mem := fun y => mem_insertApart (y := y) apart behind.1
    obtain ⟨stay, offered⟩ := ih (apart.insertApart behind.1 proper.1) behind.2 proper.2
    refine ⟨fun y member => stay y ((mem y).mpr (Or.inl member)), fun y member => ?_⟩
    rcases offered y member with early | late
    · rcases (mem y).mp early with old | ⟨rfl, -⟩
      · exact Or.inl old
      · exact Or.inr List.mem_cons_self
    · exact Or.inr (List.mem_cons_of_mem x late)

/-- Every interval that has been offered overlaps one that is kept. -/
theorem covered_foldl_insertApart (apart : Apart first last lower es)
    (behind : ∀ x ∈ xs, lower ≤ first x) (proper : ∀ x ∈ xs, first x < last x) :
    ∀ x ∈ xs, ∃ e ∈ xs.foldl (fun es x => insertApart first last x lower es) es,
      Overlaps first last x e := by
  induction xs generalizing es with
  | nil => exact fun _ member => absurd member List.not_mem_nil
  | cons x xs ih =>
    rw [List.forall_mem_cons] at behind proper
    have mem := fun y => mem_insertApart (y := y) apart behind.1
    have next := apart.insertApart behind.1 proper.1
    have stay := (mem_foldl_insertApart next behind.2 proper.2).1
    refine List.forall_mem_cons.mpr ⟨?_, ih next behind.2 proper.2⟩
    by_cases free : ∀ e ∈ es, ¬ Overlaps first last x e
    · exact ⟨x, stay x ((mem x).mpr (Or.inr ⟨rfl, free⟩)), proper.1, proper.1⟩
    · push Not at free
      obtain ⟨e, member, overlap⟩ := free
      exact ⟨e, stay e ((mem e).mpr (Or.inl member)), overlap⟩

end Fold

end Math
