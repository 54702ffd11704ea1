import ThinkingUnderstanding.Semantics.StateProgram

/-!
# Results gathered from a log

A program that notes what it does in a log, and returns a truth value, gathers its result from
the log when it returns `true` exactly if it was given `true` and every entry it has added passes.
The relation composes along a program, so a loop gathers its result when each of its
turns does.

Whether the result is looked at may depend on where the program is run: under `heeded` the
relation says something about the result, and otherwise only about the entries.

## Main definitions

* `Gathers` — the result of a run, against the entries it has added

## Main results

* `gathers_bind`, `gathers_bind_keep`, `gathers_bind_of_log_eq` — sequencing
* `gathers_foldlM`, `gathers_forM_keep` — loops that accumulate their result, or none
-/

namespace Semantics

variable {ε σ : Type} {E γ : Type*}

/-- From `s` to `t` entries are added that are all admitted; where the result is heeded, it is
`true` exactly when `given` is and the entries all pass. -/
def Gathers (log : σ → List E) (admitted passes : E → Prop) (heeded : Prop) (given : Bool) (s : σ)
    (result : Bool) (t : σ) : Prop :=
  ∃ entries, log t = log s ++ entries ∧ (∀ e ∈ entries, admitted e) ∧
    (heeded → (result = true ↔ given = true ∧ ∀ e ∈ entries, passes e))

variable {log : σ → List E} {admitted admitted' passes : E → Prop} {heeded heeded' : Prop}
  {given result result' : Bool} {s m t : σ}

namespace Gathers

/-- A run that adds no entry and returns what it was given. -/
theorem of_log_eq (same : log t = log s) (given : Bool) :
    Gathers log admitted passes heeded given s given t :=
  ⟨[], by rw [same, List.append_nil], List.forall_mem_nil _, fun _ => by simp⟩

theorem trans (first : Gathers log admitted passes heeded given s result m)
    (second : Gathers log admitted passes heeded result m result' t) :
    Gathers log admitted passes heeded given s result' t := by
  obtain ⟨entries, added, these, gathered⟩ := first
  obtain ⟨entries', added', those, gathered'⟩ := second
  refine ⟨entries ++ entries', ?_, ?_, fun heeds => ?_⟩
  · rw [added', added, List.append_assoc]
  · exact List.forall_mem_append.mpr ⟨these, those⟩
  · rw [gathered' heeds, gathered heeds, List.forall_mem_append, and_assoc]

/-- The result of a part is gathered into what was given. -/
theorem and (part : Gathers log admitted passes heeded true s result t) (given : Bool) :
    Gathers log admitted passes heeded given s (given && result) t := by
  obtain ⟨entries, added, these, gathered⟩ := part
  refine ⟨entries, added, these, fun heeds => ?_⟩
  rw [Bool.and_eq_true, gathered heeds]
  simp

/-- The result of a part may be thrown away when all of its entries pass. -/
theorem discard (part : Gathers log admitted passes heeded given s result t)
    (all : ∀ e, admitted e → passes e) (given' : Bool) :
    Gathers log admitted passes heeded' given' s given' t := by
  obtain ⟨entries, added, these, -⟩ := part
  exact ⟨entries, added, these, fun _ => (and_iff_left fun e member => all e (these e member)).symm⟩

theorem mono (part : Gathers log admitted passes heeded given s result t)
    (fewer : ∀ e, admitted e → admitted' e) (less : heeded' → heeded) :
    Gathers log admitted' passes heeded' given s result t := by
  obtain ⟨entries, added, these, gathered⟩ := part
  exact ⟨entries, added, fun e member => fewer e (these e member),
    fun heeds => gathered (less heeds)⟩

end Gathers

/-- Sequencing, when the second part accumulates into the result of the first. -/
theorem gathers_bind {p : EStateM ε σ Bool} {f : Bool → EStateM ε σ Bool}
    (first : Ensures p (Gathers log admitted passes heeded given))
    (rest : ∀ result, Ensures (f result) (Gathers log admitted passes heeded result)) :
    Ensures (p >>= f) (Gathers log admitted passes heeded given) := by
  intro s result' t run
  obtain ⟨result, m, ran, run⟩ := run_bind_eq_ok_iff.mp run
  exact (first s result m ran).trans (rest result m result' t run)

/-- Sequencing after a part that leaves what was given as it is. -/
theorem gathers_bind_keep {α : Type} {p : EStateM ε σ α} {f : α → EStateM ε σ Bool}
    (part : Ensures p fun s _ t => Gathers log admitted passes heeded given s given t)
    (rest : ∀ a, Ensures (f a) (Gathers log admitted passes heeded given)) :
    Ensures (p >>= f) (Gathers log admitted passes heeded given) := by
  intro s result t run
  obtain ⟨a, m, ran, run⟩ := run_bind_eq_ok_iff.mp run
  exact (part s a m ran).trans (rest a m result t run)

/-- Sequencing after a part that adds no entry. -/
theorem gathers_bind_of_log_eq {α : Type} {p : EStateM ε σ α} {f : α → EStateM ε σ Bool}
    (quiet : Ensures p fun s _ t => log t = log s)
    (rest : ∀ a, Ensures (f a) (Gathers log admitted passes heeded given)) :
    Ensures (p >>= f) (Gathers log admitted passes heeded given) :=
  gathers_bind_keep (quiet.mono fun _ _ _ same => .of_log_eq same given) rest

/-- A loop of steps that leave what was given as it is. -/
theorem gathers_forM_keep {f : γ → EStateM ε σ PUnit} (cs : List γ)
    (turns : ∀ c ∈ cs, Ensures (f c) fun s _ t =>
      Gathers log admitted passes heeded given s given t) :
    Ensures (cs.forM f) fun s _ t => Gathers log admitted passes heeded given s given t := by
  induction cs with
  | nil =>
    intro s result t run
    cases run
    exact .of_log_eq rfl given
  | cons c cs ih =>
    rw [List.forall_mem_cons] at turns
    intro s result t run
    obtain ⟨_, m, turn, rest⟩ := run_bind_eq_ok_iff.mp run
    exact (turns.1 s _ m turn).trans (ih turns.2 m result t rest)

/-- A loop gathers its result when each turn gathers it into what it was given. -/
theorem gathers_foldlM {f : Bool → γ → EStateM ε σ Bool} (cs : List γ)
    (turns : ∀ c ∈ cs, ∀ given, Ensures (f given c) (Gathers log admitted passes heeded given)) :
    ∀ given, Ensures (cs.foldlM f given) (Gathers log admitted passes heeded given) := by
  induction cs with
  | nil =>
    intro given s result t run
    cases run
    exact .of_log_eq rfl given
  | cons c cs ih =>
    rw [List.forall_mem_cons] at turns
    intro given s result t run
    obtain ⟨result', m, turn, rest⟩ := run_bind_eq_ok_iff.mp run
    exact (turns.1 given s result' m turn).trans (ih turns.2 result' m result t rest)

end Semantics
