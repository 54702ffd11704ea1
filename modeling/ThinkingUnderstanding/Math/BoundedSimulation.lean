import Mathlib.Data.Nat.Notation

/-!
# Simulation for a number of rounds

Two graphs are compared in rounds: for every successor on the one side there has to be one on
the other side that fits it, and from the two of them the comparison goes on. Cycles do no harm
to a comparison of a bounded number of rounds.

## Main definitions

* `Math.Simulates` — one node can follow another for a number of rounds

## Main results

* `Simulates.of_succ` — fewer rounds are easier
* `simulates_self` — a node can follow itself
-/

namespace Math

variable {α β : Type*}

/-- For `n` rounds, whatever successor is taken of `a`, the other side can follow from `b`. -/
def Simulates (next : α → List α) (next' : β → List β) (fits : β → α → Prop) :
    ℕ → α → β → Prop
  | 0, _, _ => True
  | n + 1, a, b => ∀ a' ∈ next a, ∃ b' ∈ next' b, fits b' a' ∧ Simulates next next' fits n a' b'

variable {next : α → List α} {next' : β → List β} {fits : β → α → Prop}

/-- Who can follow for another round can follow for one round less. -/
theorem Simulates.of_succ {n : ℕ} {a : α} {b : β}
    (follows : Simulates next next' fits (n + 1) a b) : Simulates next next' fits n a b := by
  induction n generalizing a b with
  | zero => trivial
  | succ n ih =>
    intro a' step
    -- the same answer is good enough, for the rounds that are left
    obtain ⟨b', answer, fit, later⟩ := follows a' step
    exact ⟨b', answer, fit, ih later⟩

/-- A node can follow itself for ever, when every node fits itself. -/
theorem simulates_self {fits : α → α → Prop} (self : ∀ a, fits a a) (n : ℕ) (a : α) :
    Simulates next next fits n a a := by
  induction n generalizing a with
  | zero => trivial
  | succ n ih => exact fun a' step => ⟨a', step, self a', ih a'⟩

end Math
