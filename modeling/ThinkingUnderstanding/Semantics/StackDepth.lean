import Mathlib.Data.Nat.Notation
import ThinkingUnderstanding.Semantics.StateProgram

/-!
# Recursive programs on a bounded stack

A recursive program is given the depth of its stack, and raises an exception of its own where
the depth does not suffice. That it terminates then says two things. On a deeper stack it ends
as it does on a less deep one, unless it overflows there; and from the states with some
invariant it does not overflow.

## Main definitions

* `Approximates` — a program that ends like another one, unless it overflows
* `Fits` — a program that does not overflow, from states with an invariant that it keeps

## Main results

* `Approximates.bind`, `Approximates.foldlM`, `Approximates.mapM` — sequencing and iteration
* `Fits.bind`, `Fits.foldlM`, `Fits.mapM` — the same for `Fits`
* `run_eq_of_fits` — from some depth on, the outcome is the same
-/

namespace Semantics

variable {ε σ α β γ : Type}

/-- Unless `p` overflows, `q` ends as it does. -/
def Approximates (overflow : ε) (p q : EStateM ε σ α) : Prop :=
  ∀ s, (∃ t, p.run s = .error overflow t) ∨ q.run s = p.run s

/-- Started with the invariant, the program does not overflow, and when it returns the
invariant holds. -/
def Fits (overflow : ε) (I : σ → Prop) (p : EStateM ε σ α) : Prop :=
  ∀ s, I s → (∀ t, p.run s ≠ .error overflow t) ∧ ∀ a t, p.run s = .ok a t → I t

variable {overflow : ε}

namespace Approximates

theorem refl (p : EStateM ε σ α) : Approximates overflow p p := fun _ => Or.inr rfl

/-- The program that overflows approximates all others. -/
theorem throw (q : EStateM ε σ α) : Approximates overflow (MonadExcept.throw overflow) q :=
  fun s => Or.inl ⟨s, rfl⟩

theorem bind {p q : EStateM ε σ α} {f g : α → EStateM ε σ β} (first : Approximates overflow p q)
    (rest : ∀ a, Approximates overflow (f a) (g a)) :
    Approximates overflow (p >>= f) (q >>= g) := by
  intro s
  rw [EStateM.run_bind, EStateM.run_bind]
  rcases first s with ⟨t, overflows⟩ | same
  · exact Or.inl ⟨t, by rw [overflows]⟩
  · rw [same]
    cases p.run s with
    | ok a m => exact rest a m
    | error e m => exact Or.inr rfl

theorem foldlM {f g : β → γ → EStateM ε σ β} (cs : List γ)
    (turns : ∀ b c, Approximates overflow (f b c) (g b c)) (b : β) :
    Approximates overflow (cs.foldlM f b) (cs.foldlM g b) := by
  induction cs generalizing b with
  | nil => exact refl _
  | cons c cs ih =>
    rw [List.foldlM_cons, List.foldlM_cons]
    exact (turns b c).bind ih

theorem mapM {f g : γ → EStateM ε σ α} (cs : List γ)
    (turns : ∀ c, Approximates overflow (f c) (g c)) :
    Approximates overflow (cs.mapM f) (cs.mapM g) := by
  induction cs with
  | nil => exact refl _
  | cons c cs ih =>
    rw [List.mapM_cons, List.mapM_cons]
    exact (turns c).bind fun a => ih.bind fun as => refl _

end Approximates

namespace Fits

variable {I : σ → Prop}

theorem pure (a : α) : Fits overflow I (Pure.pure a : EStateM ε σ α) := by
  intro s inv
  refine ⟨fun t => nofun, fun b t run => ?_⟩
  cases run
  exact inv

theorem throw {e : ε} (other : e ≠ overflow) :
    Fits overflow I (MonadExcept.throw e : EStateM ε σ α) := by
  intro s inv
  refine ⟨fun t run => ?_, fun b t run => nomatch run⟩
  cases run
  exact other rfl

/-- A step that always returns, and keeps the invariant. -/
theorem of_run {p : EStateM ε σ α} (returns : ∀ s, I s → ∃ a t, p.run s = .ok a t ∧ I t) :
    Fits overflow I p := by
  intro s inv
  obtain ⟨a, t, run, kept⟩ := returns s inv
  rw [run]
  refine ⟨fun t' => nofun, fun b t' run' => ?_⟩
  cases run'
  exact kept

theorem bind {p : EStateM ε σ α} {f : α → EStateM ε σ β} (first : Fits overflow I p)
    (rest : ∀ a, Fits overflow I (f a)) : Fits overflow I (p >>= f) := by
  intro s inv
  obtain ⟨fits, keeps⟩ := first s inv
  rw [EStateM.run_bind]
  cases run : p.run s with
  | ok a m => exact rest a m (keeps a m run)
  | error e m =>
    refine ⟨fun t overflows => ?_, fun b t run' => nomatch run'⟩
    cases overflows
    exact fits m run

/-- A step that reads the state. -/
theorem get_bind {f : σ → EStateM ε σ β} (rest : ∀ s, I s → Fits overflow I (f s)) :
    Fits overflow I (get >>= f) :=
  fun s inv => rest s inv s inv

theorem foldlM {f : β → γ → EStateM ε σ β} (cs : List γ)
    (turns : ∀ b c, Fits overflow I (f b c)) (b : β) : Fits overflow I (cs.foldlM f b) := by
  induction cs generalizing b with
  | nil => exact pure b
  | cons c cs ih =>
    rw [List.foldlM_cons]
    exact (turns b c).bind ih

theorem mapM {f : γ → EStateM ε σ α} (cs : List γ) (turns : ∀ c, Fits overflow I (f c)) :
    Fits overflow I (cs.mapM f) := by
  induction cs with
  | nil => exact pure []
  | cons c cs ih =>
    rw [List.mapM_cons]
    exact (turns c).bind fun a => ih.bind fun as => pure (a :: as)

end Fits

/-- On a stack on which the program fits, and on every deeper one, the outcome is the same. -/
theorem run_eq_of_fits {p : ℕ → EStateM ε σ α}
    (deeper : ∀ depth, Approximates overflow (p depth) (p (depth + 1))) {I : σ → Prop} {depth : ℕ}
    (fits : Fits overflow I (p depth)) {s : σ} (inv : I s) {depth' : ℕ} (le : depth ≤ depth') :
    (p depth').run s = (p depth).run s := by
  induction le with
  | refl => rfl
  | @step depth' _ ih =>
    rcases deeper depth' s with ⟨t, overflows⟩ | same
    · rw [ih] at overflows
      exact absurd overflows ((fits s inv).1 t)
    · exact same.trans ih

end Semantics
