import ThinkingUnderstanding.Semantics.StateProgram

/-!
# Programs that differ in what they record

A program may keep a record in its state of what it does, and return more than another one
does. When the record and the rest of the value are forgotten, the two end alike. This is a
functional simulation in both directions, which composes along programs.

## Main definitions

* `forget` — an outcome without a part of its state and of its value
* `Forgets` — two programs that end alike but for these parts

## Main results

* `Forgets.bind`, `Forgets.foldlM`, `Forgets.foldlM_id`, `Forgets.mapM`, `Forgets.forM` —
  sequencing and iteration
-/

namespace Semantics

variable {ε σ τ α β α' β' γ δ : Type}

/-- The outcome as it is seen in part. -/
def forget (view : σ → τ) (value : α → β) : EStateM.Result ε σ α → EStateM.Result ε τ β
  | .ok a s => .ok (value a) (view s)
  | .error e s => .error e (view s)

/-- Seen in part, the outcomes of `p` are those of `q`. -/
def Forgets (view : σ → τ) (value : α → β) (p : EStateM ε σ α) (q : EStateM ε τ β) : Prop :=
  ∀ s, forget view value (p.run s) = q.run (view s)

namespace Forgets

variable {view : σ → τ} {value : α → β} {value' : α' → β'}

/-- The two programs leave the same, as it is seen. -/
theorem finalState_run {p : EStateM ε σ α} {q : EStateM ε τ β} (alike : Forgets view value p q)
    (s : σ) : finalState (q.run (view s)) = view (finalState (p.run s)) := by
  rw [← alike s]
  cases p.run s with
  | ok a t => rfl
  | error e t => rfl

theorem pure {a : α} {b : β} (same : value a = b) :
    Forgets (ε := ε) view value (Pure.pure a) (Pure.pure b) :=
  fun s => congrArg (EStateM.Result.ok · (view s)) same

theorem throw (e : ε) : Forgets view value (MonadExcept.throw e : EStateM ε σ α)
    (MonadExcept.throw e : EStateM ε τ β) :=
  fun _ => rfl

theorem get_bind {f : σ → EStateM ε σ α} {g : τ → EStateM ε τ β}
    (rest : ∀ s, Forgets view value (f s) (g (view s))) :
    Forgets view value (get >>= f) (get >>= g) :=
  fun s => rest s s

theorem bind {p : EStateM ε σ α} {q : EStateM ε τ β} {f : α → EStateM ε σ α'}
    {g : β → EStateM ε τ β'} (first : Forgets view value p q)
    (rest : ∀ a, Forgets view value' (f a) (g (value a))) :
    Forgets view value' (p >>= f) (q >>= g) := by
  intro s
  have same := first s
  rw [EStateM.run_bind, EStateM.run_bind, ← same]
  cases p.run s with
  | ok a m => exact rest a m
  | error e m => rfl

/-- What follows leaves what is seen. -/
theorem bind_unseen {p : EStateM ε σ α} {q : EStateM ε τ PUnit} {f : α → EStateM ε σ α'}
    (first : Forgets view (fun _ => PUnit.unit) p q)
    (rest : ∀ a, Forgets view (fun _ => PUnit.unit) (f a) (Pure.pure PUnit.unit)) :
    Forgets view (fun _ => PUnit.unit) (p >>= f) q := by
  have whole := first.bind (g := fun _ => Pure.pure PUnit.unit) rest
  rwa [bind_pure_unit] at whole

/-- A loop that accumulates a result that is forgotten. -/
theorem foldlM {f : α → γ → EStateM ε σ α} {g : δ → EStateM ε τ PUnit} (element : δ → γ)
    (cs : List δ) (turns : ∀ a, ∀ c ∈ cs, Forgets view (fun _ => ⟨⟩) (f a (element c)) (g c))
    (a : α) : Forgets view (fun _ => ⟨⟩) ((cs.map element).foldlM f a) (forM cs g) := by
  induction cs generalizing a with
  | nil => exact pure rfl
  | cons c cs ih =>
    rw [List.map_cons, List.foldlM_cons, List.forM_cons]
    refine (turns a c List.mem_cons_self).bind fun b => ih (fun b' c' member => ?_) b
    exact turns b' c' (List.mem_cons_of_mem c member)

/-- A loop that accumulates a result that is kept. -/
theorem foldlM_id {f : α → γ → EStateM ε σ α} {g : α → γ → EStateM ε τ α} (cs : List γ)
    (turns : ∀ a, ∀ c ∈ cs, Forgets view id (f a c) (g a c)) (a : α) :
    Forgets view id (cs.foldlM f a) (cs.foldlM g a) := by
  induction cs generalizing a with
  | nil => exact pure rfl
  | cons c cs ih =>
    rw [List.foldlM_cons, List.foldlM_cons]
    refine (turns a c List.mem_cons_self).bind fun b => ih (fun b' c' member => ?_) b
    exact turns b' c' (List.mem_cons_of_mem c member)

theorem mapM {f : γ → EStateM ε σ α} {g : γ → EStateM ε τ α} (cs : List γ)
    (turns : ∀ c ∈ cs, Forgets view id (f c) (g c)) :
    Forgets view id (cs.mapM f) (cs.mapM g) := by
  induction cs with
  | nil => exact pure rfl
  | cons c cs ih =>
    rw [List.mapM_cons, List.mapM_cons]
    refine (turns c List.mem_cons_self).bind fun a => ?_
    exact (ih fun c' member => turns c' (List.mem_cons_of_mem c member)).bind fun _ => pure rfl

theorem forM {f : γ → EStateM ε σ PUnit} {g : γ → EStateM ε τ PUnit} (cs : List γ)
    (turns : ∀ c ∈ cs, Forgets view id (f c) (g c)) :
    Forgets view id (cs.forM f) (cs.forM g) := by
  induction cs with
  | nil => exact pure rfl
  | cons c cs ih =>
    refine (turns c List.mem_cons_self).bind fun _ => ih fun c' member => ?_
    exact turns c' (List.mem_cons_of_mem c member)

end Forgets

end Semantics
