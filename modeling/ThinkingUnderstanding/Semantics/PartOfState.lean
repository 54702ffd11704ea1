import ThinkingUnderstanding.Semantics.Forgetting

/-!
# Programs on a part of the state

A program may be run on a part of a larger state. It then does to that part what it does by itself,
and the rest of the state stays, whether it returns or raises an exception.

## Main definitions

* `OnPart` — a program on the whole state is another one on a part of it

## Main results

* `OnPart.forgets` — when the rest is forgotten, the two programs end alike
* `OnPart.maintains` — an invariant of the part becomes one of the whole
-/

namespace Semantics

variable {ε σ τ α : Type}

/-- On the part that is viewed, `q` is `p`, and the whole is updated with what `p` leaves. -/
structure OnPart (view : σ → τ) (update : σ → τ → σ) (q : EStateM ε σ α) (p : EStateM ε τ α) :
    Prop where
  run_of_ok : ∀ {s a t}, p.run (view s) = .ok a t → q.run s = .ok a (update s t)
  run_of_error : ∀ {s e t}, p.run (view s) = .error e t → q.run s = .error e (update s t)

namespace OnPart

variable {view : σ → τ} {update : σ → τ → σ} {q : EStateM ε σ α} {p : EStateM ε τ α}

theorem run_eq_ok_iff (part : OnPart view update q p) {s s' : σ} {a : α} :
    q.run s = .ok a s' ↔ ∃ t, p.run (view s) = .ok a t ∧ s' = update s t := by
  cases run : p.run (view s) with
  | ok b t =>
    rw [part.run_of_ok run]
    constructor
    · intro same
      cases same
      exact ⟨t, rfl, rfl⟩
    · rintro ⟨_, same, rfl⟩
      cases same
      rfl
  | error e t =>
    rw [part.run_of_error run]
    constructor
    · intro same
      cases same
    · rintro ⟨_, same, -⟩
      cases same

/-- Whether the program returns or not, the whole is updated with what is left of the part. -/
theorem finalState_run (part : OnPart view update q p) (s : σ) :
    finalState (q.run s) = update s (finalState (p.run (view s))) := by
  cases run : p.run (view s) with
  | ok a t =>
    rw [part.run_of_ok run]
    rfl
  | error e t =>
    rw [part.run_of_error run]
    rfl

theorem forgets (part : OnPart view update q p) (viewed : ∀ s t, view (update s t) = t) :
    Forgets view id q p := by
  intro s
  cases run : p.run (view s) with
  | ok a t =>
    rw [part.run_of_ok run]
    exact congrArg (EStateM.Result.ok a) (viewed s t)
  | error e t =>
    rw [part.run_of_error run]
    exact congrArg (EStateM.Result.error e) (viewed s t)

/-- The invariant says of the part something that `p` keeps, which may depend on the rest. -/
theorem maintains (part : OnPart view update q p) {I : σ → Prop} (kept : σ → τ → Prop)
    (holds : ∀ s, I s → kept s (view s)) (whole : ∀ s t, I s → kept s t → I (update s t))
    (keeps : ∀ s, I s → Maintains (kept s) p fun _ => True) :
    Maintains I q fun _ => True := by
  intro s inv
  refine ⟨?_, fun _ _ _ => trivial⟩
  rw [part.finalState_run]
  exact whole s _ inv ((keeps s inv).keeps (holds s inv))

end OnPart

end Semantics
