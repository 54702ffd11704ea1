import ThinkingUnderstanding.Semantics.PartOfState

/-!
# Programs and the walks that list what they do

A program that notes in a log what it does, and uses none of the results for its further course,
goes the way of a walk, a program on a part of its state that lists what is to be done. Then the
walk tells beforehand which entries a run adds to the log, and which runs raise an exception.
The relation composes along the two programs.

## Main definitions

* `ListedBy` — the entries that a program adds are those that a walk lists
* `inTurn` — a walk of several parts

## Main results

* `ListedBy.bind`, `ListedBy.bind_part`, `ListedBy.get_bind` — sequencing
* `ListedBy.foldlM`, `ListedBy.forM` — loops
-/

namespace Semantics

variable {ε σ τ α β γ O E : Type}

/-- Where the walk ends, so does the program, with an entry for each item of the list; where the
walk raises an exception, the program does too. -/
def ListedBy (view : σ → τ) (log : σ → List E) (entry : O → E) (p : EStateM ε σ α)
    (q : EStateM ε τ (List O)) : Prop :=
  ∀ s, match q.run (view s) with
    | .ok items w => ∃ a t, p.run s = .ok a t ∧ view t = w ∧ log t = log s ++ items.map entry
    | .error e _ => ∃ t, p.run s = .error e t

/-- The parts of a walk, one after the other. -/
def inTurn (cs : List γ) (walk : γ → EStateM ε τ (List O)) : EStateM ε τ (List O) :=
  return (← cs.mapM walk).flatten

theorem inTurn_cons (c : γ) (cs : List γ) (walk : γ → EStateM ε τ (List O)) :
    inTurn (c :: cs) walk =
      walk c >>= fun items => inTurn cs walk >>= fun items' => pure (items ++ items') := by
  simp [inTurn, List.mapM_cons]

namespace ListedBy

variable {view : σ → τ} {log : σ → List E} {entry : O → E} {p : EStateM ε σ α}
  {q : EStateM ε τ (List O)}

theorem run_eq_ok (listed : ListedBy view log entry p q) {s : σ} {items : List O} {w : τ}
    (run : q.run (view s) = .ok items w) :
    ∃ a t, p.run s = .ok a t ∧ view t = w ∧ log t = log s ++ items.map entry := by
  have here := listed s
  rwa [run] at here

theorem run_eq_error (listed : ListedBy view log entry p q) {s : σ} {e : ε} {w : τ}
    (run : q.run (view s) = .error e w) : ∃ t, p.run s = .error e t := by
  have here := listed s
  rwa [run] at here

theorem pure (a : α) : ListedBy (ε := ε) view log entry (Pure.pure a) (Pure.pure []) :=
  fun s => ⟨a, s, rfl, rfl, (List.append_nil _).symm⟩

theorem throw (e : ε) : ListedBy view log entry (MonadExcept.throw e : EStateM ε σ α)
    (MonadExcept.throw e) :=
  fun s => ⟨s, rfl⟩

/-- What follows, whatever the result was, is listed after it. -/
theorem bind {f : α → EStateM ε σ β} {r : EStateM ε τ (List O)}
    (first : ListedBy view log entry p q) (rest : ∀ a, ListedBy view log entry (f a) r) :
    ListedBy view log entry (p >>= f)
      (q >>= fun items => r >>= fun items' => Pure.pure (items ++ items')) := by
  intro s
  rw [EStateM.run_bind]
  cases walked : q.run (view s) with
  | error e w =>
    obtain ⟨t, raised⟩ := first.run_eq_error walked
    exact ⟨t, by rw [EStateM.run_bind, raised]⟩
  | ok items w =>
    obtain ⟨a, t, run, rfl, added⟩ := first.run_eq_ok walked
    dsimp only
    rw [EStateM.run_bind]
    cases walked' : r.run (view t) with
    | error e w =>
      obtain ⟨u, raised⟩ := (rest a).run_eq_error walked'
      exact ⟨u, by rw [EStateM.run_bind, run]; exact raised⟩
    | ok items' w =>
      obtain ⟨b, u, run', same, added'⟩ := (rest a).run_eq_ok walked'
      refine ⟨b, u, by rw [EStateM.run_bind, run]; exact run', same, ?_⟩
      rw [added', added, List.map_append, List.append_assoc]

/-- The result may be turned into another one. -/
theorem bind_pure (listed : ListedBy view log entry p q) (f : α → β) :
    ListedBy view log entry (p >>= fun a => Pure.pure (f a)) q := by
  intro s
  rw [EStateM.run_bind]
  cases walked : q.run (view s) with
  | error e w =>
    obtain ⟨t, raised⟩ := listed.run_eq_error walked
    exact ⟨t, by rw [raised]⟩
  | ok items w =>
    obtain ⟨a, t, run, same, added⟩ := listed.run_eq_ok walked
    exact ⟨f a, t, by rw [run]; rfl, same, added⟩

theorem get_bind {f : σ → EStateM ε σ α} {g : τ → EStateM ε τ (List O)}
    (rest : ∀ s, ListedBy view log entry (f s) (g (view s))) :
    ListedBy view log entry (get >>= f) (get >>= g) :=
  fun s => rest s s

/-- A program on the part is run by both, and its value is used by both. -/
theorem bind_part {update : σ → τ → σ} {u : EStateM ε σ β} {v : EStateM ε τ β}
    (part : OnPart view update u v) (viewed : ∀ s w, view (update s w) = w)
    (unlogged : ∀ s w, log (update s w) = log s) {f : β → EStateM ε σ α}
    {g : β → EStateM ε τ (List O)} (rest : ∀ b, ListedBy view log entry (f b) (g b)) :
    ListedBy view log entry (u >>= f) (v >>= g) := by
  intro s
  rw [EStateM.run_bind, EStateM.run_bind]
  cases walked : v.run (view s) with
  | error e w => exact ⟨_, by rw [part.run_of_error walked]⟩
  | ok b w =>
    rw [part.run_of_ok walked]
    have here := rest b (update s w)
    rw [viewed, unlogged] at here
    exact here

/-- A change of the state that both make. -/
theorem modify_bind {f : σ → σ} {g : τ → τ} (viewed : ∀ s, view (f s) = g (view s))
    (unlogged : ∀ s, log (f s) = log s) {p : EStateM ε σ α} {q : EStateM ε τ (List O)}
    (rest : ListedBy view log entry p q) :
    ListedBy view log entry (modify f >>= fun _ => p) (modify g >>= fun _ => q) := by
  intro s
  have here := rest (f s)
  rw [viewed, unlogged] at here
  exact here

/-- A change of the state that both make in the end. -/
theorem bind_modify {f : σ → σ} {g : τ → τ} (viewed : ∀ s, view (f s) = g (view s))
    (unlogged : ∀ s, log (f s) = log s) (listed : ListedBy view log entry p q) :
    ListedBy view log entry (p >>= fun a => modify f >>= fun _ => Pure.pure a)
      (q >>= fun items => modify g >>= fun _ => Pure.pure items) := by
  intro s
  rw [EStateM.run_bind, EStateM.run_bind]
  cases walked : q.run (view s) with
  | error e w =>
    obtain ⟨t, raised⟩ := listed.run_eq_error walked
    exact ⟨t, by rw [raised]⟩
  | ok items w =>
    obtain ⟨a, t, run, rfl, added⟩ := listed.run_eq_ok walked
    rw [run]
    exact ⟨a, f t, rfl, viewed t, (unlogged t).trans added⟩

/-- A loop that accumulates a result, whose turns are listed whatever has been accumulated. -/
theorem foldlM {f : α → γ → EStateM ε σ α} {walk : γ → EStateM ε τ (List O)} (cs : List γ)
    (turns : ∀ a, ∀ c ∈ cs, ListedBy view log entry (f a c) (walk c)) (a : α) :
    ListedBy view log entry (cs.foldlM f a) (inTurn cs walk) := by
  induction cs generalizing a with
  | nil => exact pure a
  | cons c cs ih =>
    have whole := (turns a c List.mem_cons_self).bind fun a' =>
      ih (fun b d member => turns b d (List.mem_cons_of_mem c member)) a'
    rw [List.foldlM_cons, inTurn_cons]
    exact whole

theorem forM {f : γ → EStateM ε σ PUnit} {walk : γ → EStateM ε τ (List O)} (cs : List γ)
    (turns : ∀ c ∈ cs, ListedBy view log entry (f c) (walk c)) :
    ListedBy view log entry (cs.forM f) (inTurn cs walk) := by
  induction cs with
  | nil => exact pure PUnit.unit
  | cons c cs ih =>
    have whole := (turns c List.mem_cons_self).bind fun _ =>
      ih fun d member => turns d (List.mem_cons_of_mem c member)
    rw [inTurn_cons]
    exact whole

end ListedBy

end Semantics
