import ThinkingUnderstanding.Semantics.Forgetting

/-!
# Programs that do not see a change of the state

A part of the state may be exchanged for another one that gives a program the same answers. Then it
does not matter whether the exchange is made before the program runs or after it. This is
shown for the steps of a program, under an invariant, and follows for their sequence.

## Main definitions

* `Commutes` — the program runs alike before and after the change

## Main results

* `Commutes.bind`, `Commutes.get_bind`, `Commutes.mapM`, `Commutes.foldlM` — sequencing and
  iteration
-/

namespace Semantics

variable {ε σ α β γ : Type}

/-- From the states with the invariant, which is kept, the program does the same when the state is
changed before it and when it is changed after it. -/
structure Commutes (I : σ → Prop) (change : σ → σ) (p : EStateM ε σ α) : Prop where
  maintains : Maintains I p fun _ => True
  run_change : ∀ s, I s → p.run (change s) = forget change id (p.run s)

namespace Commutes

variable {I : σ → Prop} {change : σ → σ}

theorem pure (a : α) : Commutes (ε := ε) I change (Pure.pure a) :=
  ⟨maintains_pure trivial, fun _ _ => rfl⟩

theorem throw (e : ε) : Commutes I change (MonadExcept.throw e : EStateM ε σ α) :=
  ⟨maintains_throw e, fun _ _ => rfl⟩

/-- A step that computes the same value and the same state but for the change. -/
theorem modifyGet {f : σ → α × σ} (keeps : ∀ s, I s → I (f s).2)
    (same : ∀ s, I s → f (change s) = ((f s).1, change (f s).2)) :
    Commutes (ε := ε) I change (MonadStateOf.modifyGet f) where
  maintains s inv := ⟨keeps s inv, fun _ _ _ => trivial⟩
  run_change s inv := by
    change EStateM.Result.ok (f (change s)).1 (f (change s)).2 = .ok (f s).1 (change (f s).2)
    rw [same s inv]

theorem bind {p : EStateM ε σ α} {f : α → EStateM ε σ β} (first : Commutes I change p)
    (rest : ∀ a, Commutes I change (f a)) : Commutes I change (p >>= f) where
  maintains := first.maintains.bind fun a _ => (rest a).maintains
  run_change s inv := by
    rw [EStateM.run_bind, EStateM.run_bind, first.run_change s inv]
    have kept := first.maintains.keeps inv
    cases run : p.run s with
    | ok a m =>
      rw [run] at kept
      exact (rest a).run_change m kept
    | error e m => rfl

/-- What is read of the state is the same after the change. -/
theorem get_bind {f : σ → EStateM ε σ β} (same : ∀ s, I s → f (change s) = f s)
    (rest : ∀ s, I s → Commutes I change (f s)) : Commutes I change (get >>= f) where
  maintains := maintains_get_bind fun s inv => (rest s inv).maintains
  run_change s inv := by
    change (f (change s)).run (change s) = forget change id ((f s).run s)
    rw [same s inv, (rest s inv).run_change s inv]

theorem mapM {f : γ → EStateM ε σ α} (cs : List γ) (turns : ∀ c ∈ cs, Commutes I change (f c)) :
    Commutes I change (cs.mapM f) := by
  induction cs with
  | nil => exact pure []
  | cons c cs ih =>
    rw [List.mapM_cons]
    refine (turns c List.mem_cons_self).bind fun a => ?_
    exact (ih fun c' member => turns c' (List.mem_cons_of_mem c member)).bind fun as => pure _

theorem foldlM {f : β → γ → EStateM ε σ β} (cs : List γ)
    (turns : ∀ b, ∀ c ∈ cs, Commutes I change (f b c)) (b : β) :
    Commutes I change (cs.foldlM f b) := by
  induction cs generalizing b with
  | nil => exact pure b
  | cons c cs ih =>
    rw [List.foldlM_cons]
    exact (turns b c List.mem_cons_self).bind fun b' =>
      ih (fun b'' c' member => turns b'' c' (List.mem_cons_of_mem c member)) b'

end Commutes

end Semantics
