import Mathlib.Data.List.Count
import Mathlib.Data.List.Nodup
import Mathlib.Data.List.Perm.Subperm

/-!
# Counting the elements that pass a test

How often an element passes a test, and how many elements pass one of two tests.

## Main results

* `nodup_filter_iff` — no element that passes occurs twice
* `countP_lt_countP` — fewer elements pass a stronger test
* `countP_add_countP` — an element that passes two tests is counted by both
* `subperm_filter_append_filter` — the elements that pass one of two tests
-/

namespace Math

variable {α : Type*} {p q : α → Bool} {as : List α}

/-- No element that passes occurs twice. -/
theorem nodup_filter_iff [DecidableEq α] :
    (as.filter p).Nodup ↔ ∀ a ∈ as.filter p, as.count a ≤ 1 := by
  rw [List.nodup_iff_count_le_one]
  refine forall_congr' fun a => ?_
  by_cases member : a ∈ as.filter p
  · rw [List.count_filter (List.mem_filter.mp member).2]
    exact ⟨fun once _ => once, fun once => once member⟩
  · rw [List.count_eq_zero_of_not_mem member]
    exact iff_of_true (Nat.zero_le 1) fun passes => absurd passes member

/-- Fewer elements pass a stronger test, when one of them no longer does. -/
theorem countP_lt_countP {a : α} (stronger : ∀ x ∈ as, p x → q x) (member : a ∈ as)
    (passes : q a) (fails : ¬ p a) : as.countP p < as.countP q := by
  obtain ⟨before, after, rfl⟩ := List.append_of_mem member
  have first : before.countP p ≤ before.countP q :=
    List.countP_mono_left fun x inside => stronger x (List.mem_append_left _ inside)
  have rest : after.countP p ≤ after.countP q := List.countP_mono_left fun x inside =>
    stronger x (List.mem_append_right _ (List.mem_cons_of_mem a inside))
  rw [List.countP_append, List.countP_append, List.countP_cons_of_pos passes,
    List.countP_cons_of_neg fails]
  omega

/-- An element that passes both tests is counted by both. -/
theorem countP_add_countP (p q : α → Bool) (as : List α) :
    as.countP p + as.countP q =
      as.countP (fun a => p a || q a) + as.countP fun a => p a && q a := by
  induction as with
  | nil => rfl
  | cons a as ih =>
    simp only [List.countP_cons]
    cases p a <;> cases q a <;> simp <;> omega

/-- The elements that pass one of two tests, when none passes both. -/
theorem subperm_filter_append_filter (apart : ∀ a ∈ as, p a → ¬ q a) :
    (as.filter p ++ as.filter q).Subperm as := by
  have others : as.filter q = (as.filter fun a => !p a).filter q := by
    rw [List.filter_filter]
    apply List.filter_congr
    intro a member
    cases passes : p a with
    | false => simp
    | true => simpa using apart a member passes
  have sublist : (as.filter q).Sublist (as.filter fun a => !p a) := others ▸ List.filter_sublist
  exact ((List.subperm_append_left (as.filter p)).mpr sublist.subperm).trans
    (List.filter_append_perm p as).subperm

end Math
