import Mathlib.Algebra.Order.BigOperators.Group.List
import Mathlib.Algebra.Order.Group.Nat
import Mathlib.Order.WellFounded

/-!
# Recursions without a list of what has been seen

A function that recurses into every successor of a node, and keeps no record of the nodes
it has been at, needs as much stack as the walks from the node are long. On a stack of
bounded depth it is a partial function, with no result where the stack overflows.

The functions are partial maps and filters over lists of successors, so these come first.

## Main definitions

* `Math.HasWalk` — a walk of a given number of steps starts at a node

## Main results

* `isSome_iff_not_hasWalk` — a recursion fits on its stack unless there is a long walk
* `exists_not_hasWalk_iff_acc`, `exists_forall_not_hasWalk_iff_acc` — some stack is deep enough
  exactly for accessible nodes
* `not_acc_of_exists_next` — nodes that are not accessible
-/

namespace Math

variable {α β : Type*}

/-! ## Partial maps and filters -/

theorem isSome_mapM_iff {f : α → Option β} {as : List α} :
    (as.mapM f).isSome ↔ ∀ a ∈ as, (f a).isSome := by
  induction as with
  | nil => simp
  | cons a rest ih =>
    rw [List.mapM_cons, List.forall_mem_cons]
    cases value : f a with
    | none => simp
    | some b =>
      rw [← ih]
      cases rest.mapM f <;> simp

theorem mapM_eq_some {f : α → Option β} {g : α → β} {as : List α}
    (value : ∀ a ∈ as, f a = some (g a)) : as.mapM f = some (as.map g) := by
  induction as with
  | nil => rfl
  | cons a rest ih =>
    rw [List.forall_mem_cons] at value
    rw [List.mapM_cons, value.1, ih value.2]
    rfl

/-- What a partial map returns are the values of the elements. -/
theorem mem_mapM_iff {f : α → Option β} {as : List α} {bs : List β}
    (returns : as.mapM f = some bs) {b : β} : b ∈ bs ↔ ∃ a ∈ as, f a = some b := by
  induction as generalizing bs with
  | nil =>
    cases returns
    simp
  | cons a rest ih =>
    rw [List.mapM_cons] at returns
    obtain ⟨value, has, returns⟩ := Option.bind_eq_some_iff.mp returns
    obtain ⟨values, hasRest, returns⟩ := Option.bind_eq_some_iff.mp returns
    cases returns
    simp only [List.mem_cons, ih hasRest, exists_eq_or_imp, has, Option.some_inj]
    exact or_congr_left eq_comm

theorem mapM_congr {f g : α → Option β} {as : List α} (same : ∀ a ∈ as, f a = g a) :
    as.mapM f = as.mapM g := by
  induction as with
  | nil => rfl
  | cons a rest ih =>
    rw [List.forall_mem_cons] at same
    rw [List.mapM_cons, List.mapM_cons, same.1, ih same.2]

section Filter

variable {α : Type}

/-- A filter with an accumulator, which keeps what passes in reverse. -/
theorem filterAuxM_eq_some {p : α → Option Bool} {q : α → Bool} {as acc : List α}
    (value : ∀ a ∈ as, p a = some (q a)) :
    as.filterAuxM p acc = some ((as.filter q).reverse ++ acc) := by
  induction as generalizing acc with
  | nil => rfl
  | cons a rest ih =>
    rw [List.forall_mem_cons] at value
    rw [List.filterAuxM, value.1]
    refine (ih value.2).trans ?_
    cases passes : q a <;> simp [passes]

theorem filterM_eq_some {p : α → Option Bool} {q : α → Bool} {as : List α}
    (value : ∀ a ∈ as, p a = some (q a)) : as.filterM p = some (as.filter q) := by
  rw [List.filterM, filterAuxM_eq_some value]
  simp

theorem isSome_filterAuxM_iff {p : α → Option Bool} {as acc : List α} :
    (as.filterAuxM p acc).isSome ↔ ∀ a ∈ as, (p a).isSome := by
  induction as generalizing acc with
  | nil => simp [List.filterAuxM]
  | cons a rest ih =>
    rw [List.filterAuxM, List.forall_mem_cons]
    cases value : p a with
    | none => simp
    | some passes =>
      rw [Option.isSome_some]
      exact ih.trans (and_iff_right rfl).symm

theorem isSome_filterM_iff {p : α → Option Bool} {as : List α} :
    (as.filterM p).isSome ↔ ∀ a ∈ as, (p a).isSome := by
  rw [← @isSome_filterAuxM_iff _ p as [], List.filterM]
  cases as.filterAuxM p [] <;> rfl

/-- What a partial filter returns. -/
theorem eq_filter_of_filterM_eq_some {p : α → Option Bool} {as kept : List α}
    (returns : as.filterM p = some kept) : kept = as.filter fun a => (p a).getD false := by
  have defined := isSome_filterM_iff.mp (returns ▸ rfl : (as.filterM p).isSome)
  have value : as.filterM p = some (as.filter fun a => (p a).getD false) := by
    apply filterM_eq_some
    intro a member
    obtain ⟨b, has⟩ := Option.isSome_iff_exists.mp (defined a member)
    rw [has, Option.getD_some]
  rw [returns] at value
  exact Option.some.inj value

theorem filterAuxM_congr {p q : α → Option Bool} {as acc : List α}
    (same : ∀ a ∈ as, p a = q a) : as.filterAuxM p acc = as.filterAuxM q acc := by
  induction as generalizing acc with
  | nil => rfl
  | cons a rest ih =>
    rw [List.forall_mem_cons] at same
    rw [List.filterAuxM, List.filterAuxM, same.1]
    exact congrArg _ (funext fun _ => ih same.2)

theorem filterM_congr {p q : α → Option Bool} {as : List α} (same : ∀ a ∈ as, p a = q a) :
    as.filterM p = as.filterM q := by
  rw [List.filterM, List.filterM, filterAuxM_congr same]

end Filter

/-! ## Walks -/

/-- A walk of `n` steps along `next` starts at the node. -/
def HasWalk (next : α → List α) : ℕ → α → Prop
  | 0, _ => True
  | n + 1, a => ∃ b ∈ next a, HasWalk next n b

variable {next : α → List α} {m n : ℕ} {a : α}

/-- The beginning of a walk is a walk. -/
theorem HasWalk.of_succ (walk : HasWalk next (n + 1) a) : HasWalk next n a := by
  induction n generalizing a with
  | zero => trivial
  | succ n ih =>
    obtain ⟨b, step, rest⟩ := walk
    exact ⟨b, step, ih rest⟩

theorem HasWalk.of_le (le : m ≤ n) (walk : HasWalk next n a) : HasWalk next m a := by
  induction n, le using Nat.le_induction with
  | base => exact walk
  | succ n _ ih => exact ih walk.of_succ

/-- From a node that is its own successor there are walks of any length. -/
theorem hasWalk_of_mem_self (self : a ∈ next a) (n : ℕ) : HasWalk next n a := by
  induction n with
  | zero => trivial
  | succ n ih => exact ⟨a, self, ih⟩

/-- A function that recurses into all successors has a result unless some walk is as long
as the stack is deep. -/
theorem isSome_iff_not_hasWalk {f : ℕ → α → Option β} (exhausted : ∀ a, f 0 a = none)
    (step : ∀ n a, (f (n + 1) a).isSome ↔ ∀ b ∈ next a, (f n b).isSome) :
    (f n a).isSome ↔ ¬ HasWalk next n a := by
  induction n generalizing a with
  | zero =>
    rw [exhausted]
    exact iff_of_false Bool.false_ne_true (not_not_intro trivial)
  | succ n ih =>
    rw [step, HasWalk]
    push Not
    exact forall₂_congr fun b _ => ih

/-- The walks from a node are of bounded length exactly when the node is accessible: there
are finitely many successors to take a bound over. -/
theorem exists_not_hasWalk_iff_acc :
    (∃ n, ¬ HasWalk next n a) ↔ Acc (fun b a => b ∈ next a) a := by
  constructor
  · rintro ⟨n, short⟩
    induction n generalizing a with
    | zero => exact absurd trivial short
    | succ n ih => exact ⟨a, fun b step => ih fun walk => short ⟨b, step, walk⟩⟩
  · intro acc
    induction acc with
    | intro a _ ih =>
      choose! bound short using ih
      -- one more than the largest bound among the successors
      refine ⟨((next a).map bound).sum + 1, ?_⟩
      rintro ⟨b, step, walk⟩
      refine short b step ?_
      exact walk.of_le (List.single_le_sum (fun _ _ => Nat.zero_le _) _
        (List.mem_map_of_mem step))

/-- For finitely many nodes there is a common bound. -/
theorem exists_forall_not_hasWalk_iff_acc {as : List α} :
    (∃ n, ∀ a ∈ as, ¬ HasWalk next n a) ↔ ∀ a ∈ as, Acc (fun b a => b ∈ next a) a := by
  constructor
  · exact fun ⟨n, short⟩ a member => exists_not_hasWalk_iff_acc.mp ⟨n, short a member⟩
  · intro all
    induction as with
    | nil => exact ⟨0, List.forall_mem_nil _⟩
    | cons a rest ih =>
      rw [List.forall_mem_cons] at all
      obtain ⟨n, short⟩ := exists_not_hasWalk_iff_acc.mpr all.1
      obtain ⟨m, shorter⟩ := ih all.2
      refine ⟨max n m, List.forall_mem_cons.mpr ⟨fun walk => short ?_, fun b member walk => ?_⟩⟩
      · exact walk.of_le (le_max_left _ _)
      · exact shorter b member (walk.of_le (le_max_right _ _))

/-- A property that some successor of every node with it has again leads into no end. -/
theorem not_acc_of_exists_next {P : α → Prop} (turns : ∀ a, P a → ∃ b ∈ next a, P b)
    (holds : P a) : ¬ Acc (fun b a => b ∈ next a) a := by
  intro acc
  induction acc with
  | intro a _ ih =>
    obtain ⟨b, step, holds'⟩ := turns a holds
    exact ih b step holds'

end Math
