import Mathlib.Data.List.Basic

/-!
# Views that are kept

Objects are asked for a view of what they are at the moment. A view that is accepted is kept, and
is the answer to every later request, whatever becomes of the object; one that is not accepted is
no answer. So an answer is the view at the first request for the object at which it was accepted.

## Main definitions

* `firstAccepted` — the first request for an object whose view is accepted
* `Answered` — the requests have been answered in this way
* `Unchanged` — the view of an object at a request is the one that is kept

## Main results

* `answered_concat_iff` — one more request
* `Answered.eq_some_view_iff` — which answers are views of the moment
-/

namespace Math

variable {ρ κ ν : Type*} [DecidableEq κ] (object : ρ → κ) (view : ρ → ν) (accepts : ν → Bool)
  (answer : ρ → Option ν)

/-- The first request for an object whose view is accepted. -/
def firstAccepted (requests : List ρ) (k : κ) : Option ρ :=
  requests.find? fun r => object r = k ∧ accepts (view r)

/-- Every request is answered by the first view of the object that has been accepted. -/
def Answered (requests : List ρ) : Prop :=
  ∀ before r after, requests = before ++ r :: after →
    answer r = (firstAccepted object view accepts (before ++ [r]) (object r)).map view

/-- The view at a request is accepted, and is the first view of the object that has been. -/
def Unchanged (before : List ρ) (r : ρ) : Prop :=
  accepts (view r) ∧ ∀ first ∈ firstAccepted object view accepts before (object r),
    view first = view r

variable {object view accepts answer} {requests before after : List ρ} {r first : ρ} {k : κ}

/-- What is kept stays, and where nothing is kept, a further view of the object may be. -/
theorem map_firstAccepted_concat (requests : List ρ) (r : ρ) (k : κ) :
    (firstAccepted object view accepts (requests ++ [r]) k).map view =
      ((firstAccepted object view accepts requests k).map view).or
        (if object r = k ∧ accepts (view r) then some (view r) else none) := by
  rw [firstAccepted, List.find?_append, Option.map_or, List.find?_singleton,
    apply_ite (Option.map view)]
  simp only [decide_eq_true_eq, Option.map_some, Option.map_none]
  rfl

theorem accepts_of_mem_firstAccepted
    (member : first ∈ firstAccepted object view accepts requests k) : accepts (view first) := by
  have here := List.find?_some member
  exact (decide_eq_true_eq.mp here).2

theorem answered_nil : Answered object view accepts answer [] := by
  intro before r after split
  exact absurd split.symm (List.append_ne_nil_of_right_ne_nil before (List.cons_ne_nil r after))

/-- One more request is answered like the ones before. -/
theorem answered_concat_iff : Answered object view accepts answer (requests ++ [r]) ↔
    Answered object view accepts answer requests ∧
      answer r = (firstAccepted object view accepts (requests ++ [r]) (object r)).map view := by
  constructor
  · intro answered
    refine ⟨fun before r' after split => answered before r' (after ++ [r]) ?_,
      answered requests r [] rfl⟩
    rw [split, List.append_assoc, List.cons_append]
  · rintro ⟨answered, last⟩ before r' after split
    rcases List.eq_nil_or_concat' after with rfl | ⟨after, r'', rfl⟩
    · obtain ⟨rfl, same⟩ := List.append_inj' split rfl
      obtain rfl := List.singleton_inj.mp same
      exact last
    · rw [← List.cons_append, ← List.append_assoc] at split
      exact answered before r' after (List.append_inj' split rfl).1

/-- An answer is the view of the moment exactly when the object has not changed since the first
accepted one. -/
theorem Answered.eq_some_view_iff (answered : Answered object view accepts answer requests)
    (split : requests = before ++ r :: after) :
    answer r = some (view r) ↔ Unchanged object view accepts before r := by
  rw [answered before r after split, map_firstAccepted_concat, Unchanged]
  cases found : firstAccepted object view accepts before (object r) with
  | some first =>
    rw [Option.map_some, Option.some_or, Option.some_inj]
    constructor
    · intro same
      exact ⟨same ▸ accepts_of_mem_firstAccepted found,
        fun other member => Option.some.inj member ▸ same⟩
    · intro unchanged
      exact unchanged.2 first rfl
  | none =>
    rw [Option.map_none, Option.none_or]
    split_ifs with accepted
    · exact iff_of_true rfl ⟨accepted.2, fun _ member => nomatch member⟩
    · exact iff_of_false (fun same => nomatch same) fun unchanged => accepted ⟨rfl, unchanged.1⟩

end Math
