import Mathlib.Data.List.Flatten
import Mathlib.Data.List.Infix

/-!
# Replacing a text within another one

All matches of a target are replaced, from the left and without overlaps, as a search for a
literal text finds them. What a replacement keeps are the pieces between the matches. The
occurrences of given words that lie within these pieces are still there afterwards, in the same
order, whatever the replacement is. When it is a single letter that the words do not have, nothing
else occurs.

## Main definitions

* `Math.pieces` — what is between the matches of the target
* `Math.replace` — the pieces with the replacement between them
* `Math.occurrences` — the words that occur in a text, by the places where they start

## Main results

* `intercalate_pieces` — a text is its pieces with the target between them
* `flatMap_occurrences_sublist` — what occurs in the pieces occurs in the replaced text
* `occurrences_intercalate_singleton` — when it is all that occurs there
-/

namespace Math

variable {α : Type*} {p : List α → Bool} {a : α} {s t : List α} {ps : List (List α)}

/-- The words that occur in a text, by the places where they start. -/
def occurrences (p : List α → Bool) : List α → List (List α)
  | [] => []
  | a :: s => (a :: s).inits.filter p ++ occurrences p s

theorem occurrences_append_sublist (p : List α → Bool) (s t : List α) :
    (occurrences p s ++ occurrences p t).Sublist (occurrences p (s ++ t)) := by
  induction s with
  | nil => exact List.Sublist.refl _
  | cons a s ih =>
    rw [occurrences, List.append_assoc, List.cons_append, occurrences, ← List.cons_append,
      List.inits_append, List.filter_append]
    exact (List.sublist_append_left _ _).append ih

/-- What occurs in the pieces of a text occurs in the text. -/
theorem flatMap_occurrences_sublist (p : List α → Bool) (y : List α) (ps : List (List α)) :
    (ps.flatMap (occurrences p)).Sublist (occurrences p (y.intercalate ps)) := by
  induction ps with
  | nil => exact List.Sublist.refl _
  | cons first rest ih =>
    cases rest with
    | nil => rw [List.flatMap_singleton, List.intercalate_singleton]
    | cons second rest =>
      rw [List.flatMap_cons, List.intercalate_cons_cons, List.append_assoc]
      have behind : (occurrences p (y.intercalate (second :: rest))).Sublist
          (occurrences p (y ++ y.intercalate (second :: rest))) :=
        (List.sublist_append_right _ _).trans (occurrences_append_sublist p y _)
      exact ((List.Sublist.refl _).append (ih.trans behind)).trans
        (occurrences_append_sublist p first _)

theorem intercalate_nil_left (ps : List (List α)) : List.intercalate [] ps = ps.flatten := by
  induction ps with
  | nil => rfl
  | cons first rest ih =>
    cases rest with
    | nil => exact List.intercalate_singleton.trans List.flatten_singleton.symm
    | cons second rest =>
      rw [List.intercalate_cons_cons, ih, List.append_nil]
      rfl

section

variable (apart : ∀ w, p w = true → w ≠ [] ∧ a ∉ w)
include apart

/-- A letter that no word has separates what occurs before it from what occurs behind it. -/
theorem occurrences_append_cons (s t : List α) :
    occurrences p (s ++ a :: t) = occurrences p s ++ occurrences p t := by
  -- what starts before the letter and goes past it is no word
  have past : ∀ s, ((a :: t).inits.tail.map fun w => s ++ w).filter p = [] := by
    intro s
    rw [List.filter_eq_nil_iff]
    intro w member word
    obtain ⟨v, inside, rfl⟩ := List.mem_map.mp member
    rw [List.inits_cons, List.tail_cons] at inside
    obtain ⟨v', -, rfl⟩ := List.mem_map.mp inside
    exact (apart _ word).2 (List.mem_append_right s List.mem_cons_self)
  induction s with
  | nil =>
    have empty : p [] = false := by
      by_contra word
      exact (apart [] (eq_true_of_ne_false word)).1 rfl
    have none := past []
    rw [List.inits_cons, List.tail_cons] at none
    simp only [List.nil_append, List.map_id'] at none
    rw [List.nil_append, occurrences.eq_2, List.inits_cons, List.filter_cons, empty, none]
    rfl
  | cons b s ih =>
    rw [List.cons_append, occurrences, ← List.cons_append, List.inits_append, List.filter_append,
      past, List.append_nil, ih, occurrences, List.append_assoc]

/-- When such a letter is between the pieces, nothing occurs but what occurs in one of them. -/
theorem occurrences_intercalate_singleton (ps : List (List α)) :
    occurrences p ([a].intercalate ps) = ps.flatMap (occurrences p) := by
  induction ps with
  | nil => rfl
  | cons first rest ih =>
    cases rest with
    | nil => rw [List.flatMap_singleton, List.intercalate_singleton]
    | cons second rest =>
      rw [List.flatMap_cons, List.intercalate_cons_cons, List.append_assoc, List.singleton_append,
        occurrences_append_cons apart, ih]

end

variable [DecidableEq α]

/-- What is between the matches of a target that is not empty; `skip` is how much of the last match
is still to be passed. -/
def piecesFrom (target : List α) : ℕ → List α → List (List α)
  | _, [] => [[]]
  | skip + 1, _ :: s => piecesFrom target skip s
  | 0, a :: s =>
      if target.isPrefixOf (a :: s) then [] :: piecesFrom target (target.length - 1) s
      else (piecesFrom target 0 s).modifyHead (List.cons a)

/-- What is between the matches of the target. The empty one matches before each letter, and at the
end. -/
def pieces (target s : List α) : List (List α) :=
  if target = [] then [] :: s.map (fun a => [a]) ++ [[]] else piecesFrom target 0 s

/-- The text with the replacement in the place of each match of the target. -/
def replace (target replacement s : List α) : List α := replacement.intercalate (pieces target s)

theorem piecesFrom_ne_nil (target : List α) (skip : ℕ) (s : List α) :
    piecesFrom target skip s ≠ [] := by
  fun_induction piecesFrom target skip s with
  | case1 => exact List.cons_ne_nil _ _
  | case2 => assumption
  | case3 => exact List.cons_ne_nil _ _
  | case4 skip s differs ih =>
    rw [ne_eq, List.modifyHead_eq_nil_iff]
    exact ih

theorem intercalate_piecesFrom {target : List α} (nonempty : target ≠ []) (skip : ℕ)
    (s : List α) : target.intercalate (piecesFrom target skip s) = s.drop skip := by
  fun_induction piecesFrom target skip s with
  | case1 => rw [List.drop_nil, List.intercalate_singleton]
  | case2 skip a s ih => rw [ih, List.drop_succ_cons]
  | case3 a s match_ ih =>
    -- the match, and what is behind it
    obtain ⟨rest, split⟩ := List.isPrefixOf_iff_prefix.mp match_
    have length : target.length - 1 + 1 = target.length :=
      Nat.succ_pred_eq_of_pos (List.length_pos_iff.mpr nonempty)
    have behind : s.drop (target.length - 1) = rest := by
      rw [← List.drop_succ_cons (a := a), length, ← split, List.drop_left]
    rw [List.intercalate_cons_of_ne_nil (piecesFrom_ne_nil _ _ _), ih, behind, List.nil_append,
      split, List.drop_zero]
  | case4 a s differs ih =>
    have ne := piecesFrom_ne_nil target 0 s
    obtain ⟨first, rest, same⟩ := List.exists_cons_of_ne_nil ne
    rw [same] at ih ⊢
    rw [List.modifyHead_cons, List.intercalate_cons_cons_left, ih]
    rfl

/-- A text is its pieces with the target between them. -/
theorem intercalate_pieces (target s : List α) : target.intercalate (pieces target s) = s := by
  unfold pieces
  split_ifs with empty
  · rw [empty, intercalate_nil_left, List.flatten_append, List.flatten_cons, List.nil_append,
      List.flatten_singleton, List.append_nil]
    exact (List.flatMap_def ..).symm.trans (List.flatMap_singleton' s)
  · exact intercalate_piecesFrom empty 0 s

end Math
