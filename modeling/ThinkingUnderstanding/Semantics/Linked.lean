import Mathlib.Order.Basic

/-!
# Linked sequences of events

An event has a source and a target. A sequence of events is linked when each event
starts where the one before it ended, so that the sequence records how a value went
from its first state to its last one.

## Main definitions

* `Semantics.Linked` — the events lead from `a` to `b`

## Main results

* `Linked.append` — consecutive sequences
* `Linked.ascending` — a measure that no event decreases lies, throughout the sequence,
  between its first and its last value
-/

namespace Semantics

variable {α ε : Type*}

/-- The events lead from one value to another, each starting where the last one ended. -/
def Linked (source target : ε → α) : α → List ε → α → Prop
  | a, [], b => a = b
  | a, e :: es, b => source e = a ∧ Linked source target (target e) es b

variable {source target : ε → α} {a b c : α} {es fs : List ε}

@[simp] theorem linked_nil : Linked source target a [] b ↔ a = b := Iff.rfl

@[simp] theorem linked_cons {e : ε} :
    Linked source target a (e :: es) b ↔
      source e = a ∧ Linked source target (target e) es b := Iff.rfl

theorem Linked.append (first : Linked source target a es b)
    (second : Linked source target b fs c) : Linked source target a (es ++ fs) c := by
  induction es generalizing a with
  | nil =>
    obtain rfl := linked_nil.mp first
    exact second
  | cons e es ih => exact ⟨first.1, ih first.2⟩

/-- A measure that no event of the sequence decreases only grows along it. -/
theorem Linked.ascending {β : Type*} [Preorder β] {measure : α → β}
    (linked : Linked source target a es b)
    (step : ∀ e ∈ es, measure (source e) ≤ measure (target e)) :
    measure a ≤ measure b ∧
      ∀ e ∈ es, measure a ≤ measure (source e) ∧ measure (target e) ≤ measure b := by
  induction es generalizing a with
  | nil =>
    obtain rfl := linked_nil.mp linked
    exact ⟨le_rfl, fun e member => nomatch member⟩
  | cons e es ih =>
    obtain ⟨rfl, rest⟩ := linked
    obtain ⟨below, between⟩ := ih rest fun e' member => step e' (List.mem_cons_of_mem e member)
    have first := step e List.mem_cons_self
    refine ⟨first.trans below, fun e' member => ?_⟩
    rcases List.mem_cons.mp member with rfl | later
    · exact ⟨le_rfl, below⟩
    · obtain ⟨lower, upper⟩ := between e' later
      exact ⟨first.trans lower, upper⟩

end Semantics
