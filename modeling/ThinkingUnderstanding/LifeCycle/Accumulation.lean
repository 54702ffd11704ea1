import ThinkingUnderstanding.LifeCycle.Record

/-!
# Knowledge accumulated in a run

The global context never loses what it has collected, and it includes what every context
that reaches `copyGlobalContext` has collected. The contexts returned to a join do not
all reach it: the join merges them first. What they accumulated arrives; their reports
arrive only when the global context had them already.

## Main definitions

* `CopyStep.KeepsKnowledge` — the outcome includes every context returned in the step
* `CopyStep.JoinsReportNothingNew` — the joined contexts bring no report of their own

## Main results

* `CopyStep.Valid.keepsKnowledge_iff` — the two agree for one step
* `knowledge_kept_runGoals_iff` — growth, and the equivalence, along every run
-/

namespace ThinkingUnderstanding

open Semantics ThinkingLifeCycle

variable {σ C P : Type}

/-- The outcome of the step includes what every context returned by `translate` in this
step has collected: the outermost one, and those returned to a join inside it. -/
def CopyStep.KeepsKnowledge (step : CopyStep C P) : Prop :=
  step.returned.knowledge ≤ step.result.knowledge ∧
    ∀ parts ∈ step.joined, ∀ part ∈ parts, part.knowledge ≤ step.result.knowledge

/-- The contexts returned to a join of two actions or more report nothing that the
global context does not report already. -/
def CopyStep.JoinsReportNothingNew (step : CopyStep C P) : Prop :=
  ∀ parts ∈ step.joined, 2 ≤ parts.length →
    ∀ part ∈ parts, part.reports ≤ step.base.reports

namespace CopyStep.Valid

variable [DecidableEq C] [DecidableEq P] {step : CopyStep C P}

theorem base_le (valid : step.Valid) : step.base.knowledge ≤ step.result.knowledge := by
  rw [valid.result]
  exact ContextHelper.knowledge_le_mergeWithBaseContext _ _ List.mem_cons_self

theorem returned_le (valid : step.Valid) : step.returned.knowledge ≤ step.result.knowledge := by
  rw [valid.result]
  exact ContextHelper.knowledge_le_mergeWithBaseContext _ _ (by simp)

/-- Without a contribution of the returned context the reports stay those of the base. -/
theorem reports_le_base (valid : step.Valid) (empty : step.returned.reports = ⊥) :
    step.result.reports ≤ step.base.reports := by
  rw [valid.result]
  refine (ContextHelper.isLUB_reports_mergeWithBaseContext _ _).2 ?_
  rintro _ ⟨ctx, member, rfl⟩
  rcases List.mem_cons.mp member with rfl | later
  · exact le_rfl
  rcases List.mem_cons.mp later with rfl | last
  · exact le_rfl
  · rw [List.mem_singleton.mp last, empty]
    exact bot_le

/-- A step keeps all knowledge exactly when its joins report nothing new. -/
theorem keepsKnowledge_iff (valid : step.Valid) :
    step.KeepsKnowledge ↔ step.JoinsReportNothingNew := by
  constructor
  · rintro ⟨-, kept⟩ parts member several part inside
    exact (kept parts member part inside).2.trans
      (valid.reports_le_base (valid.forgets parts member several))
  · intro nothing
    refine ⟨valid.returned_le, fun parts member part inside => ⟨?_, ?_⟩⟩
    · exact (valid.accumulated parts member part inside).trans valid.returned_le.1
    · rcases valid.reports parts member part inside with kept | ⟨parts', present, several, other⟩
      · exact kept.trans valid.returned_le.2
      · obtain ⟨part', inside', below⟩ := other
        exact (below.trans (nothing parts' present several part' inside')).trans valid.base_le.2

end CopyStep.Valid

section Run

variable [DecidableEq C] [DecidableEq P]

/-- In every run of `runGoals`, whatever the actions do and however deep their requests
nest: the recorded changes lead from the first global context to the last one; each of
them only adds to what the global context has collected, and nothing is lost up to the
end of the run; and a call of `copyGlobalContext` includes what every context returned by
`translate` in it has collected exactly when its joins report nothing new. -/
theorem knowledge_kept_runGoals_iff (env : Environment σ C P) (depth rounds : ℕ)
    (targetGoals : List Goal) (s : LifeCycle σ C P) :
    ∃ events,
      (finalState ((runGoals env depth rounds targetGoals).run s)).record =
        s.record ++ events ∧
      Linked Event.before Event.after s.globalContext events
        (finalState ((runGoals env depth rounds targetGoals).run s)).globalContext ∧
      (∀ event ∈ events,
        s.globalContext.knowledge ≤ event.before.knowledge ∧
        event.before.knowledge ≤ event.after.knowledge ∧
        event.after.knowledge ≤
          (finalState ((runGoals env depth rounds targetGoals).run s)).globalContext.knowledge) ∧
      ∀ step, Event.copied step ∈ events → (step.KeepsKnowledge ↔ step.JoinsReportNothingNew) := by
  obtain ⟨events, record, linked, valid⟩ := recorded_runGoals env depth rounds targetGoals s
  have grown := (linked.ascending fun event member => (valid event member).knowledge_le).2
  refine ⟨events, record, linked, fun event member => ?_, fun step member => ?_⟩
  · exact ⟨(grown event member).1, (valid event member).knowledge_le, (grown event member).2⟩
  · have done : step.Valid := valid _ member
    exact done.keepsKnowledge_iff

end Run

/-! ### The classification of an incident

The actions of the goal `ClassifyIncident` are joined. When its critics report a phrase
they do not understand, the join drops the report. -/

/-- The tables of the source, with actions that report phrase `7` as not understood. -/
def classifying : Environment Unit ConceptRef PhraseRef where
  goalResourceMap := KBAdapter.goalResourceMap
  uriName _ := ""
  getReflectiveCritics _ := .ok KBAdapter.defaultSelfReflectiveCritics
  act _ _ world := ({ answer := .ok (.fresh { notUnderstoodPhrases := [7] }) }, world)

theorem classifying_loses_report :
    ¬ ∀ step, Event.copied step ∈ (finalState ((runGoals classifying 1 1
      [KBAdapter.goal 12 "ClassifyIncident"]).run { globalContext := {}, world := () })).record →
        step.KeepsKnowledge := by
  intro kept
  have joined := kept
    { base := {}
      returned := {}
      joined := [[{ notUnderstoodPhrases := [7] }, { notUnderstoodPhrases := [7] },
        { notUnderstoodPhrases := [7] }]]
      result := {} } (by decide +kernel)
  have lost := (joined.2 _ List.mem_cons_self _ List.mem_cons_self).2
  have present := (ShortTermMemory.reports_le_iff.mp lost).1 7 List.mem_cons_self
  cases present

end ThinkingUnderstanding
