import Mathlib.Order.Defs.Unbundled

/-!
# Relations between the initial and the final state of a program

A program of `EStateM ε σ` runs on a state and ends with a value or an exception, and
with a state in either case. A two-state relation is respected when it holds between
the state a run starts from and the state it leaves, however it ends. For a preorder
this is closed under sequencing, so a property of a whole run follows from the same
property of its primitive steps.

## Main definitions

* `Semantics.finalState` — the state a run leaves, with or without an exception
* `Semantics.Respects` — every run of the program is related by `R`
* `Semantics.Ensures` — every run that ends normally meets a postcondition
* `Semantics.Maintains` — every run keeps an invariant, and returns a value with a property
* `Semantics.Reachable` — the states reached by operations

## Main results

* `Respects.bind`, `Respects.mapM`, `Respects.filterM` — sequencing and iteration
* `Respects.bind_of_ensures` — sequencing, where the second part relies on what the
  first one ensures
* `Maintains.bind`, `Maintains.mapM`, `Maintains.foldlM` — the same for invariants
* `Reachable.invariant` — what every operation keeps holds in all states reached
* `forall_runAll_iff` — when a property holds all along a run
* `run_bind_eq_ok_iff` — a sequence ends normally when both of its parts do
-/

namespace Semantics

universe u

variable {ε σ α β γ : Type u}

/-- The state a run leaves, whether it returned or raised an exception. -/
def finalState : EStateM.Result ε σ α → σ
  | .ok _ s => s
  | .error _ s => s

/-- The value a run returns, when it ends without an exception. -/
def returned : EStateM.Result ε σ α → Option α
  | .ok a _ => some a
  | .error _ _ => none

/-- A run that returns a value ends in its final state. -/
theorem eq_ok_of_returned {result : EStateM.Result ε σ α} {a : α}
    (value : returned result = some a) : result = .ok a (finalState result) := by
  cases result with
  | ok b s =>
    cases value
    rfl
  | error e s => exact nomatch value

/-- A run that returns no value ends with an exception. -/
theorem exists_error_of_returned {result : EStateM.Result ε σ α}
    (value : returned result = none) : ∃ e s, result = .error e s := by
  cases result with
  | ok a s => exact nomatch value
  | error e s => exact ⟨e, s, rfl⟩

@[simp] theorem finalState_ok (a : α) (s : σ) :
    finalState (.ok a s : EStateM.Result ε σ α) = s := rfl

@[simp] theorem finalState_error (e : ε) (s : σ) :
    finalState (.error e s : EStateM.Result ε σ α) = s := rfl

/-- A run whose value is not used leaves what the run leaves. -/
theorem finalState_discard (p : EStateM ε σ α) (s : σ) :
    finalState ((discard p).run s) = finalState (p.run s) := by
  change finalState ((p >>= fun _ => pure PUnit.unit).run s) = _
  rw [EStateM.run_bind]
  cases p.run s with
  | ok a t => rfl
  | error e t => rfl

/-- Every run of `p` leads from a state to an `R`-related one. -/
def Respects (R : σ → σ → Prop) (p : EStateM ε σ α) : Prop :=
  ∀ s, R s (finalState (p.run s))

/-- Every run of `p` that ends normally meets the postcondition `Q`, which may speak of
the state the run started from. -/
def Ensures (p : EStateM ε σ α) (Q : σ → α → σ → Prop) : Prop :=
  ∀ s a t, p.run s = .ok a t → Q s a t

/-- A sequence ends normally exactly when its first part does and the rest does after it. -/
theorem run_bind_eq_ok_iff {p : EStateM ε σ α} {f : α → EStateM ε σ β} {s t : σ} {b : β} :
    (p >>= f).run s = .ok b t ↔ ∃ a m, p.run s = .ok a m ∧ (f a).run m = .ok b t := by
  rw [EStateM.run_bind]
  cases p.run s with
  | ok a m =>
    constructor
    · exact fun h => ⟨a, m, rfl, h⟩
    · rintro ⟨_, _, first, h⟩
      cases first
      exact h
  | error e m =>
    constructor
    · exact fun h => nomatch h
    · rintro ⟨_, _, first, _⟩
      cases first

/-- A program that tells its exceptions otherwise runs alike. -/
theorem run_adaptExcept_of_ok {ε' : Type u} {p : EStateM ε σ α} {s t : σ} {a : α} (f : ε → ε')
    (run : p.run s = .ok a t) : (EStateM.adaptExcept f p).run s = .ok a t := by
  have ran : p s = .ok a t := run
  rw [EStateM.run, EStateM.adaptExcept, ran]

/-- A loop whose steps return without changing the state. -/
theorem run_mapM_of_forall {f : γ → EStateM ε σ α} {g : γ → α} {cs : List γ} {s : σ}
    (run : ∀ c ∈ cs, (f c).run s = .ok (g c) s) : (cs.mapM f).run s = .ok (cs.map g) s := by
  induction cs with
  | nil => rfl
  | cons c cs ih =>
    rw [List.forall_mem_cons] at run
    rw [List.mapM_cons, EStateM.run_bind, run.1]
    change (cs.mapM f >>= fun as => pure (g c :: as)).run s = _
    rw [EStateM.run_bind, ih run.2]
    rfl

/-- A loop one of whose steps fails, and the others return without changing the state. -/
theorem run_mapM_of_error {f : γ → EStateM ε σ α} {g : γ → α} {e : ε} {cs : List γ} {s : σ}
    (run : ∀ c ∈ cs, (f c).run s = .ok (g c) s ∨ (f c).run s = .error e s)
    (fails : ∃ c ∈ cs, (f c).run s = .error e s) : (cs.mapM f).run s = .error e s := by
  induction cs with
  | nil =>
    obtain ⟨_, none, -⟩ := fails
    cases none
  | cons c cs ih =>
    rw [List.forall_mem_cons] at run
    rw [List.mapM_cons, EStateM.run_bind]
    rcases run.1 with returns | error
    · obtain ⟨d, member, error⟩ := fails
      rcases List.mem_cons.mp member with rfl | later
      · rw [error] at returns
        cases returns
      · rw [returns]
        change (cs.mapM f >>= fun as => pure (g c :: as)).run s = _
        rw [EStateM.run_bind, ih run.2 ⟨d, later, error⟩]
    · rw [error]

/-- A loop of checks ends when all of them pass, and the state is unchanged. -/
theorem run_forM_of_pass {f : γ → EStateM ε σ PUnit} {cs : List γ} {s : σ}
    (pass : ∀ c ∈ cs, (f c).run s = .ok PUnit.unit s) :
    (forM cs f).run s = .ok PUnit.unit s := by
  induction cs with
  | nil => rfl
  | cons c cs ih =>
    rw [List.forall_mem_cons] at pass
    rw [List.forM_cons, EStateM.run_bind, pass.1]
    exact ih pass.2

/-- A loop of checks fails when one of them does, and the state is unchanged. -/
theorem run_forM_of_fail {f : γ → EStateM ε σ PUnit} {cs : List γ} {s : σ}
    (check : ∀ c ∈ cs, (f c).run s = .ok PUnit.unit s ∨ ∃ e, (f c).run s = .error e s)
    (fails : ∃ c ∈ cs, ∃ e, (f c).run s = .error e s) : ∃ e, (forM cs f).run s = .error e s := by
  induction cs with
  | nil =>
    obtain ⟨_, member, -⟩ := fails
    cases member
  | cons c cs ih =>
    rw [List.forall_mem_cons] at check
    rw [List.forM_cons, EStateM.run_bind]
    rcases check.1 with passes | ⟨e, error⟩
    · obtain ⟨d, member, e, error⟩ := fails
      rw [passes]
      rcases List.mem_cons.mp member with rfl | later
      · rw [passes] at error
        cases error
      · exact ih check.2 ⟨d, later, e, error⟩
    · rw [error]
      exact ⟨e, rfl⟩

/-- What a sequence leaves: what its first part leaves, or what the rest leaves after it. -/
theorem holds_bind {p : EStateM ε σ α} {f : α → EStateM ε σ β} {s : σ} {P : σ → Prop}
    (stopped : ∀ e m, p.run s = .error e m → P m)
    (ended : ∀ a m, p.run s = .ok a m → P (finalState ((f a).run m))) :
    P (finalState ((p >>= f).run s)) := by
  rw [EStateM.run_bind]
  cases run : p.run s with
  | ok a m => exact ended a m run
  | error e m => exact stopped e m run

theorem Ensures.mono {p : EStateM ε σ α} {Q Q' : σ → α → σ → Prop} (h : Ensures p Q)
    (weaker : ∀ s a t, Q s a t → Q' s a t) : Ensures p Q' :=
  fun s a t run => weaker s a t (h s a t run)

theorem Ensures.bind {p : EStateM ε σ α} {f : α → EStateM ε σ β} {Q : σ → α → σ → Prop}
    {Q' : σ → β → σ → Prop} (hp : Ensures p Q)
    (hf : ∀ s a m, Q s a m → ∀ b t, (f a).run m = .ok b t → Q' s b t) :
    Ensures (p >>= f) Q' := by
  intro s b t run
  obtain ⟨a, m, first, rest⟩ := run_bind_eq_ok_iff.mp run
  exact hf s a m (hp s a m first) b t rest

/-- What a filter keeps is among what it was given. -/
theorem ensures_filterM {α ε σ : Type} {p : α → EStateM ε σ Bool} (as : List α) :
    Ensures (as.filterM p) fun _ kept _ => ∀ a ∈ kept, a ∈ as := by
  -- the accumulator of the loop holds elements that passed before
  have loop : ∀ acc, Ensures (as.filterAuxM p acc) fun _ kept _ =>
      ∀ a ∈ kept, a ∈ as ∨ a ∈ acc := by
    induction as with
    | nil =>
      intro acc s kept t run a member
      cases run
      exact Or.inr member
    | cons a as ih =>
      intro acc s kept t run b member
      obtain ⟨passes, m, -, run⟩ := run_bind_eq_ok_iff.mp run
      rcases ih _ m kept t run b member with inside | inside
      · exact Or.inl (List.mem_cons_of_mem a inside)
      · cases passes with
        | false => exact Or.inr inside
        | true =>
          rcases List.mem_cons.mp inside with rfl | inside
          · exact Or.inl List.mem_cons_self
          · exact Or.inr inside
  intro s kept t run a member
  obtain ⟨reversed, _, run, ended⟩ := run_bind_eq_ok_iff.mp run
  cases ended
  rcases loop [] s reversed _ run a (List.mem_reverse.mp member) with inside | none
  · exact inside
  · cases none

section Preorder

variable {R : σ → σ → Prop} [IsPreorder σ R]

theorem respects_pure (a : α) : Respects (ε := ε) R (pure a) := fun s => refl s

theorem respects_throw (e : ε) : Respects (α := α) R (throw e) := fun s => refl s

theorem respects_get : Respects (ε := ε) R (get : EStateM ε σ σ) := fun s => refl s

/-- Sequencing from one state, with the second part run only where the first one ends. -/
theorem relates_bind {p : EStateM ε σ α} {f : α → EStateM ε σ β} {s : σ}
    (first : R s (finalState (p.run s)))
    (second : ∀ a m, p.run s = .ok a m → R m (finalState ((f a).run m))) :
    R s (finalState ((p >>= f).run s)) := by
  refine holds_bind (fun e m run => ?_) fun a m run => ?_
  · rwa [run] at first
  · rw [run] at first
    exact IsTrans.trans s m _ first (second a m run)

/-- Sequencing, where the second part relies on what the first one ensures. -/
theorem Respects.bind_of_ensures {p : EStateM ε σ α} {f : α → EStateM ε σ β}
    {Q : σ → α → σ → Prop} (hp : Respects R p) (ensured : Ensures p Q)
    (hf : ∀ s a m, Q s a m → R m (finalState ((f a).run m))) : Respects R (p >>= f) :=
  fun s => relates_bind (hp s) fun a m run => hf s a m (ensured s a m run)

theorem Respects.bind {p : EStateM ε σ α} {f : α → EStateM ε σ β} (hp : Respects R p)
    (hf : ∀ a, Respects R (f a)) : Respects R (p >>= f) :=
  hp.bind_of_ensures (Q := fun _ _ _ => True) (fun _ _ _ _ => trivial)
    fun _ a m _ => hf a m

theorem Respects.mapM {f : γ → EStateM ε σ β} (cs : List γ) (hf : ∀ c ∈ cs, Respects R (f c)) :
    Respects R (cs.mapM f) := by
  induction cs with
  | nil => exact respects_pure []
  | cons c cs ih =>
    rw [List.forall_mem_cons] at hf
    rw [List.mapM_cons]
    exact hf.1.bind fun b => (ih hf.2).bind fun bs => respects_pure (b :: bs)

theorem Respects.filterM {α ε σ : Type} {R : σ → σ → Prop} [IsPreorder σ R]
    {p : α → EStateM ε σ Bool} (as : List α) (hp : ∀ a ∈ as, Respects R (p a)) :
    Respects R (as.filterM p) := by
  have loop : ∀ acc, Respects R (as.filterAuxM p acc) := by
    induction as with
    | nil => exact fun acc => respects_pure acc
    | cons a as ih =>
      intro acc
      rw [List.forall_mem_cons] at hp
      exact hp.1.bind fun passes => ih hp.2 _
  exact (loop []).bind fun kept => respects_pure kept.reverse

theorem respects_forM {f : γ → EStateM ε σ PUnit} (cs : List γ) (hf : ∀ c ∈ cs, Respects R (f c)) :
    Respects R (forM cs f) := by
  induction cs with
  | nil => exact respects_pure PUnit.unit
  | cons c cs ih =>
    rw [List.forM_cons]
    exact (hf c List.mem_cons_self).bind fun _ =>
      ih fun c' member => hf c' (List.mem_cons_of_mem c member)

end Preorder

/-- Every run of `p` from a state with the invariant `I` leaves one, however it ends, and a
value that it returns has the property `Q`. -/
def Maintains (I : σ → Prop) (p : EStateM ε σ α) (Q : α → Prop) : Prop :=
  ∀ s, I s → I (finalState (p.run s)) ∧ ∀ a t, p.run s = .ok a t → Q a

section Invariant

variable {I : σ → Prop} {Q : α → Prop} {Q' : β → Prop}

theorem Maintains.keeps {p : EStateM ε σ α} (maintains : Maintains I p Q) {s : σ} (inv : I s) :
    I (finalState (p.run s)) := (maintains s inv).1

/-- The invariant holds in the state in which a run ends normally. -/
theorem Maintains.keeps_of_run {p : EStateM ε σ α} (maintains : Maintains I p Q) {s t : σ} {a : α}
    (run : p.run s = .ok a t) (inv : I s) : I t := by
  have kept := maintains.keeps inv
  rwa [run] at kept

theorem maintains_pure {a : α} (h : Q a) : Maintains (ε := ε) I (pure a) Q := by
  intro s inv
  refine ⟨inv, fun a' t run => ?_⟩
  cases run
  exact h

theorem maintains_throw (e : ε) : Maintains I (throw e : EStateM ε σ α) Q :=
  fun _ inv => ⟨inv, fun _ _ run => nomatch run⟩

theorem maintains_get : Maintains (ε := ε) I (get : EStateM ε σ σ) I := by
  intro s inv
  refine ⟨inv, fun a t run => ?_⟩
  cases run
  exact inv

theorem maintains_modify {f : σ → σ} (h : ∀ s, I s → I (f s)) :
    Maintains (ε := ε) I (modify f) fun _ => True :=
  fun s inv => ⟨h s inv, fun _ _ _ => trivial⟩

theorem maintains_set {s : σ} (inv : I s) :
    Maintains (ε := ε) I (set s) fun _ => True :=
  fun _ _ => ⟨inv, fun _ _ _ => trivial⟩

theorem Maintains.mono {p : EStateM ε σ α} {Q₁ : α → Prop} (hp : Maintains I p Q₁)
    (weaker : ∀ a, Q₁ a → Q a) : Maintains I p Q :=
  fun s inv => ⟨(hp s inv).1, fun a t run => weaker a ((hp s inv).2 a t run)⟩

theorem Maintains.bind {p : EStateM ε σ α} {f : α → EStateM ε σ β} (hp : Maintains I p Q)
    (hf : ∀ a, Q a → Maintains I (f a) Q') : Maintains I (p >>= f) Q' := by
  intro s inv
  obtain ⟨inv', value⟩ := hp s inv
  rw [EStateM.run_bind]
  cases run : p.run s with
  | ok a m =>
    rw [run] at inv'
    exact hf a (value a m run) m inv'
  | error e m =>
    rw [run] at inv'
    exact ⟨inv', fun _ _ run => nomatch run⟩

/-- A program that depends on the state it is run from. -/
theorem maintains_get_bind {f : σ → EStateM ε σ β} (hf : ∀ s, I s → Maintains I (f s) Q') :
    Maintains I (get >>= f) Q' := maintains_get.bind hf

theorem Maintains.mapM {f : γ → EStateM ε σ α} (cs : List γ) (hf : ∀ c ∈ cs, Maintains I (f c) Q) :
    Maintains I (cs.mapM f) fun as => ∀ a ∈ as, Q a := by
  induction cs with
  | nil => exact maintains_pure (List.forall_mem_nil _)
  | cons c cs ih =>
    rw [List.mapM_cons]
    refine (hf c List.mem_cons_self).bind fun a holds => ?_
    refine (ih fun c' member => hf c' (List.mem_cons_of_mem c member)).bind fun as all => ?_
    exact maintains_pure (List.forall_mem_cons.mpr ⟨holds, all⟩)

theorem Maintains.filterM {α ε σ : Type} {I : σ → Prop} {p : α → EStateM ε σ Bool} (as : List α)
    (hp : ∀ a ∈ as, Maintains I (p a) fun _ => True) :
    Maintains I (as.filterM p) fun _ => True := by
  have loop : ∀ acc, Maintains I (as.filterAuxM p acc) fun _ => True := by
    induction as with
    | nil => exact fun acc => maintains_pure trivial
    | cons a as ih =>
      intro acc
      rw [List.forall_mem_cons] at hp
      exact hp.1.bind fun passes _ => ih hp.2 _
  exact (loop []).bind fun kept _ => maintains_pure trivial

theorem Maintains.forM {f : γ → EStateM ε σ PUnit} (cs : List γ)
    (hf : ∀ c ∈ cs, Maintains I (f c) fun _ => True) : Maintains I (forM cs f) fun _ => True := by
  induction cs with
  | nil => exact maintains_pure trivial
  | cons c cs ih =>
    rw [List.forM_cons]
    exact (hf c List.mem_cons_self).bind fun _ _ =>
      ih fun c' member => hf c' (List.mem_cons_of_mem c member)

theorem Maintains.foldlM {f : β → γ → EStateM ε σ β} (cs : List γ)
    (hf : ∀ c ∈ cs, ∀ b, Q' b → Maintains I (f b c) Q') {b : β} (first : Q' b) :
    Maintains I (cs.foldlM f b) Q' := by
  induction cs generalizing b with
  | nil => exact maintains_pure first
  | cons c cs ih =>
    rw [List.foldlM_cons]
    exact (hf c List.mem_cons_self b first).bind fun b' next =>
      ih (fun c' member => hf c' (List.mem_cons_of_mem c member)) next

end Invariant

/-! ### Runs of operations -/

/-- The states that are reached from `start` by operations, each allowed in the state it is
run in. An operation that ends with an exception has changed the state too. -/
inductive Reachable {ω : Type u} (perform : ω → EStateM ε σ α) (allowed : σ → ω → Prop)
    (start : σ) : σ → Prop
  | start : Reachable perform allowed start start
  | step {s : σ} (op : ω) : Reachable perform allowed start s → allowed s op →
      Reachable perform allowed start (finalState ((perform op).run s))

/-- The state after operations that run one after another. -/
def runAll {ω : Type u} (perform : ω → EStateM ε σ α) : List ω → σ → σ
  | [], s => s
  | op :: rest, s => runAll perform rest (finalState ((perform op).run s))

/-- What every operation keeps holds after all of them. -/
theorem invariant_runAll {ω : Type u} {perform : ω → EStateM ε σ α} {I : σ → Prop}
    (keeps : ∀ s op, I s → I (finalState ((perform op).run s))) (ops : List ω) {s : σ}
    (first : I s) : I (runAll perform ops s) := by
  induction ops generalizing s with
  | nil => exact first
  | cons op rest ih => exact ih (keeps s op first)

/-- Every operation is allowed in the state it is run in. -/
def AllAllowed {ω : Type u} (perform : ω → EStateM ε σ α) (allowed : σ → ω → Prop) :
    List ω → σ → Prop
  | [], _ => True
  | op :: rest, s =>
      allowed s op ∧ AllAllowed perform allowed rest (finalState ((perform op).run s))

theorem Reachable.runAll {ω : Type u} {perform : ω → EStateM ε σ α} {allowed : σ → ω → Prop}
    {start s : σ} (reached : Reachable perform allowed start s) {ops : List ω}
    (all : AllAllowed perform allowed ops s) :
    Reachable perform allowed start (runAll perform ops s) := by
  induction ops generalizing s with
  | nil => exact reached
  | cons op rest ih => exact ih (reached.step op all.1) all.2

/-- A property of the start that every allowed operation keeps holds in all states reached. -/
theorem Reachable.invariant {ω : Type u} {perform : ω → EStateM ε σ α}
    {allowed : σ → ω → Prop} {start : σ} {I : σ → Prop} (first : I start)
    (keeps : ∀ s op, I s → allowed s op → I (finalState ((perform op).run s))) {t : σ}
    (reached : Reachable perform allowed start t) : I t := by
  induction reached with
  | start => exact first
  | step op _ allow ih => exact keeps _ op ih allow

/-- A property holds all along a run exactly when each operation is one that keeps it. The
operations are such that they keep an invariant. -/
theorem forall_runAll_iff {ω : Type u} {perform : ω → EStateM ε σ α} {refers keeps : σ → ω → Prop}
    {I P : σ → Prop} (invariant : ∀ s op, I s → refers s op → I (finalState ((perform op).run s)))
    (step : ∀ s op, I s → refers s op → P s → (P (finalState ((perform op).run s)) ↔ keeps s op))
    {ops : List ω} {s : σ} (inv : I s) (holds : P s) (referring : AllAllowed perform refers ops s) :
    (∀ before after, ops = before ++ after → P (runAll perform before s)) ↔
      AllAllowed perform keeps ops s := by
  induction ops generalizing s with
  | nil =>
    refine iff_of_true (fun before after split => ?_) trivial
    obtain ⟨rfl, -⟩ := List.append_eq_nil_iff.mp split.symm
    exact holds
  | cons op rest ih =>
    -- the invariant goes on, so that the step lemma holds for the rest of the run
    have next := invariant s op inv referring.1
    constructor
    · intro all
      have holds' : P (finalState ((perform op).run s)) := all [op] rest rfl
      refine ⟨(step s op inv referring.1 holds).mp holds', (ih next holds' referring.2).mp ?_⟩
      exact fun before after split => all (op :: before) after (congrArg (op :: ·) split)
    · intro kept before after split
      have holds' := (step s op inv referring.1 holds).mpr kept.1
      cases before with
      | nil => exact holds
      | cons op' before =>
        obtain ⟨rfl, later⟩ := List.cons.inj split
        exact (ih next holds' referring.2).mpr kept.2 before after later

end Semantics
