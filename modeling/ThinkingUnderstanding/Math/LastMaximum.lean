import Mathlib.Order.Lattice

/-!
# The last of the largest elements

A fold that compares two elements at a time, and keeps the later one unless the earlier one is
larger, ends with the last element among those with the largest value.

## Main definitions

* `Math.LastMax` — the element is the last one with the largest value

## Main results

* `LastMax.unique` — there is only one
* `lastMax_foldl` — what the fold ends with
-/

namespace Math

variable {α β : Type*} [LinearOrder β] {f : α → β} {as : List α} {a b m m' : α}

/-- No element has a larger value, and no later one has the same. -/
def LastMax (f : α → β) (as : List α) (m : α) : Prop :=
  ∃ before after, as = before ++ m :: after ∧ (∀ a ∈ before, f a ≤ f m) ∧ ∀ a ∈ after, f a < f m

namespace LastMax

theorem mem (largest : LastMax f as m) : m ∈ as := by
  obtain ⟨before, after, rfl, -, -⟩ := largest
  exact List.mem_append_right before List.mem_cons_self

theorem le (largest : LastMax f as m) (member : a ∈ as) : f a ≤ f m := by
  obtain ⟨before, after, rfl, earlier, later⟩ := largest
  rcases List.mem_append.mp member with inside | inside
  · exact earlier a inside
  · rcases List.mem_cons.mp inside with rfl | inside
    · exact le_rfl
    · exact (later a inside).le

/-- An element that is not larger than some other one can be put in front. -/
theorem cons (largest : LastMax f as m) (member : b ∈ as) (le : f a ≤ f b) :
    LastMax f (a :: as) m := by
  have le' := le.trans (largest.le member)
  obtain ⟨before, after, rfl, earlier, later⟩ := largest
  exact ⟨a :: before, after, rfl, List.forall_mem_cons.mpr ⟨le', earlier⟩, later⟩

/-- An element that is smaller than the first one can be put behind it. -/
theorem insert (largest : LastMax f (a :: as) m) (lt : f b < f a) :
    LastMax f (a :: b :: as) m := by
  have le := largest.le List.mem_cons_self
  obtain ⟨before, after, split, earlier, later⟩ := largest
  cases before with
  | nil =>
    obtain ⟨rfl, rfl⟩ := List.cons.inj split
    exact ⟨[], b :: as, rfl, List.forall_mem_nil _, List.forall_mem_cons.mpr ⟨lt, later⟩⟩
  | cons first before =>
    obtain ⟨rfl, rfl⟩ := List.cons.inj split
    rw [List.forall_mem_cons] at earlier
    refine ⟨a :: b :: before, after, rfl, ?_, later⟩
    rw [List.forall_mem_cons, List.forall_mem_cons]
    exact ⟨earlier.1, lt.le.trans le, earlier.2⟩

theorem unique (largest : LastMax f as m) (largest' : LastMax f as m') : m = m' := by
  obtain ⟨before, after, rfl, earlier, later⟩ := largest
  obtain ⟨before', after', same, earlier', later'⟩ := largest'
  -- of two different positions, the earlier one would have the larger value
  rcases List.append_eq_append_iff.mp same with ⟨between, rfl, rest⟩ | ⟨between, rfl, rest⟩
  · cases between with
    | nil => exact (List.cons.inj rest).1
    | cons first between =>
      obtain ⟨rfl, rfl⟩ := List.cons.inj rest
      have le := earlier' m (by simp)
      exact absurd (later m' (by simp)) le.not_gt
  · cases between with
    | nil => exact (List.cons.inj rest).1.symm
    | cons first between =>
      obtain ⟨rfl, rfl⟩ := List.cons.inj rest
      have le := earlier m' (by simp)
      exact absurd (later' m (by simp)) le.not_gt

end LastMax

/-- The fold keeps the last of the largest elements. -/
theorem lastMax_foldl (f : α → β) (a : α) (as : List α) :
    LastMax f (a :: as) (as.foldl (fun x y => if f y < f x then x else y) a) := by
  induction as generalizing a with
  | nil => exact ⟨[], [], rfl, List.forall_mem_nil _, List.forall_mem_nil _⟩
  | cons b rest ih =>
    rw [List.foldl_cons]
    split
    case isTrue lt => exact (ih a).insert lt
    case isFalse ge => exact (ih b).cons List.mem_cons_self (not_lt.mp ge)

end Math
