import Mathlib.Data.List.Forall2
import Mathlib.Data.List.Permutation
import Mathlib.Data.Multiset.ZeroCons

/-!
# Lists whose elements are related one by one

Facts about `List.Forall₂`: what is known of an element of one list is that some element of the
other one is related to it, and a lookup of all elements relates them to what is found.

## Main results

* `exists_of_mem_left`, `exists_of_mem_right` — the element that one is related to
* `exists_zip_of_mem_left` — and where it stands
* `countP_eq_of_forall₂` — as many elements pass in one list as in the other
* `forall₂_of_common` — lists that are related to a third one
* `forall₂_filterMap` — a lookup in which everything is found
* `forall_split_cons_iff` — what holds wherever a list is split
* `exists_perm_of_perm_map` — a list that is a permutation of images
-/

namespace Math

variable {α β : Type*} {R : α → β → Prop} {as : List α} {bs : List β} {a : α} {b : β}

theorem exists_of_mem_left (related : List.Forall₂ R as bs) (member : a ∈ as) :
    ∃ b ∈ bs, R a b := by
  induction related with
  | nil => cases member
  | cons first _ ih =>
    rcases List.mem_cons.mp member with rfl | later
    · exact ⟨_, List.mem_cons_self, first⟩
    · obtain ⟨b, inside, holds⟩ := ih later
      exact ⟨b, List.mem_cons_of_mem _ inside, holds⟩

theorem exists_of_mem_right (related : List.Forall₂ R as bs) (member : b ∈ bs) :
    ∃ a ∈ as, R a b :=
  exists_of_mem_left (R := flip R) related.flip member

theorem exists_zip_of_mem_left (related : List.Forall₂ R as bs) (member : a ∈ as) :
    ∃ b, (a, b) ∈ as.zip bs ∧ R a b := by
  have both : List.Forall₂ (fun a b => (a, b) ∈ as.zip bs ∧ R a b) as bs := by
    rw [List.forall₂_iff_zip] at related ⊢
    exact ⟨related.1, fun zipped => ⟨zipped, related.2 zipped⟩⟩
  obtain ⟨b, -, there⟩ := exists_of_mem_left both member
  exact ⟨b, there⟩

/-- Lists whose elements are related one by one are related as multisets. -/
theorem multisetRel_of_forall₂ (related : List.Forall₂ R as bs) : Multiset.Rel R as bs := by
  induction related with
  | nil => exact .zero
  | cons first _ ih => exact .cons first ih

theorem countP_eq_of_forall₂ {p : α → Bool} {q : β → Bool} (related : List.Forall₂ R as bs)
    (same : ∀ a b, R a b → p a = q b) : as.countP p = bs.countP q := by
  induction related with
  | nil => rfl
  | cons first _ ih => rw [List.countP_cons, List.countP_cons, ih, same _ _ first]

/-- Two lists that are related to a third one are related to each other. -/
theorem forall₂_of_common {γ : Type*} {S : α → γ → Prop} {T : β → γ → Prop} {cs : List γ}
    (common : ∀ a b c, R a b → S a c → T b c) (left : List.Forall₂ R as bs)
    (right : List.Forall₂ S as cs) : List.Forall₂ T bs cs := by
  induction left generalizing cs with
  | nil =>
    cases right
    exact .nil
  | cons first _ ih =>
    cases right with
    | cons first' rest => exact .cons (common _ _ _ first first') (ih rest)

/-- What is looked up in order, when everything is found. -/
theorem forall₂_filterMap {f : α → Option β} (as : List α) (found : ∀ a ∈ as, ∃ b, f a = some b) :
    List.Forall₂ (fun a b => f a = some b) as (as.filterMap f) := by
  induction as with
  | nil => exact .nil
  | cons a as ih =>
    rw [List.forall_mem_cons] at found
    obtain ⟨⟨b, first⟩, rest⟩ := found
    rw [List.filterMap_cons_some first]
    exact .cons first (ih rest)

/-- A list is split before its first element or later. -/
theorem forall_split_cons_iff {P : List α → α → List α → Prop} :
    (∀ before b after, a :: as = before ++ b :: after → P before b after) ↔
      P [] a as ∧ ∀ before b after, as = before ++ b :: after → P (a :: before) b after := by
  constructor
  · intro all
    exact ⟨all [] a as rfl, fun before b after split => all (a :: before) b after (split ▸ rfl)⟩
  · rintro ⟨first, later⟩ before b after split
    cases before with
    | nil =>
      obtain ⟨rfl, rfl⟩ := List.cons.inj split
      exact first
    | cons c before =>
      obtain ⟨rfl, rfl⟩ := List.cons.inj split
      exact later before b after rfl

/-- A list that is a permutation of images is made of a permutation. -/
theorem exists_perm_of_perm_map {f : α → β} {l : List β} {xs : List α}
    (perm : l.Perm (xs.map f)) : ∃ ys : List α, ys.Perm xs ∧ l = ys.map f := by
  have member := List.mem_permutations.mpr perm
  rw [← List.map_permutations] at member
  obtain ⟨ys, arranged, rfl⟩ := List.mem_map.mp member
  exact ⟨ys, List.mem_permutations.mp arranged, rfl⟩

end Math
