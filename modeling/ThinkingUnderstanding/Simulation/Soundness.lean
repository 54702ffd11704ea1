import ThinkingUnderstanding.Simulation.Totality

/-!
# Are the nodes of a simulation instances of the model?

A simulation should make instances of nodes of the simulation model. The matches of a phrase
include the concepts it has been annotated with, wherever those come from, and an instance is
always made of one of these. So the nodes of a result are instances of nodes of the model exactly
when the concepts that stand for the phrases are nodes of the model.

## Main results

* `nodes_of_returns` — the nodes of a result are instances of the concepts that stand for phrases
* `sound_iff` — when they are instances of nodes of the model
-/

namespace ThinkingUnderstanding

open Math Semantics

namespace Simulation

variable {setting : SimulationSetting} {heap t : Heap} {narrative : AnnotatedNarrative}
  {simulationModel : ConceptNetwork} {draws : Draws} {stack : ℕ}

/-- An instance is one of a single concept. -/
theorem InstanceOf.parent_unique {parent parent' it : ConceptRef}
    (made : InstanceOf heap t parent it) (made' : InstanceOf heap t parent' it) :
    parent = parent' := by
  have same := made.generalisations.symm.trans made'.generalisations
  exact (List.cons.inj same).1

section Returns

variable {network : SimulatedNetwork} (wf : heap.WellFormed)
  (holds : heap.HasNetwork simulationModel)
  (exist : ∀ p ∈ phrasesOf narrative, ∀ c ∈ (heap.phrase p).concepts, c < heap.concepts.size)
  (run : (apply setting draws stack narrative simulationModel).run heap = .ok (some network) t)
  (known : network.notKnownPhrases = [])

include wf holds exist run known

/-- A simulation whose result keeps no unknown phrases has come to the creation of instances. -/
theorem matched_of_returns : Matched setting.textCase heap narrative simulationModel := by
  obtain ⟨resolved, hashed, headed⟩ := carried_of_returns run
  have allKnown : notKnown setting.textCase heap narrative simulationModel = [] := by
    by_contra unknown
    obtain ⟨network', t', run', same⟩ := run_apply_of_notKnown draws resolved hashed unknown
    rw [run] at run'
    cases run'
    exact unknown (same.symm.trans known)
  refine matched_of_carried wf holds exist resolved (headed allKnown) allKnown fun inexact => ?_
  rw [run_apply_of_no_exactMatch resolved hashed allKnown inexact] at run
  cases run

/-- The nodes of a result are instances of the concepts that stand for the phrases with a match,
in their order. -/
theorem nodes_of_returns : List.Forall₂ (InstanceOf heap t)
    (matching setting.textCase heap narrative simulationModel) network.nodes := by
  obtain ⟨-, -, -, network', same, -, nodes, -⟩ :=
    (matched_of_returns wf holds exist run known).of_returns run
  obtain rfl := Option.some.inj same
  exact nodes

/-- The nodes of a result are instances of nodes of the model exactly when the concepts that stand
for the phrases with a match are. -/
theorem sound_iff : (∀ it ∈ network.nodes, ∃ m ∈ simulationModel.nodes, InstanceOf heap t m it) ↔
    ∀ p ∈ hasMatches setting.textCase heap narrative simulationModel, ∀ c,
      StandsFor heap narrative p c → c ∈ simulationModel.nodes := by
  have matched := matched_of_returns wf holds exist run known
  have nodes := nodes_of_returns wf holds exist run known
  constructor
  · intro sound p member c stands
    have stands' := standsFor_standFor narrative (matched.carried p member)
    obtain rfl := stands.unique stands'
    obtain ⟨it, inside, made⟩ := exists_of_mem_left nodes (List.mem_map_of_mem member)
    obtain ⟨m, node, made'⟩ := sound it inside
    exact made.parent_unique made' ▸ node
  · intro modelled it inside
    obtain ⟨c, member, made⟩ := exists_of_mem_right nodes inside
    obtain ⟨p, present, rfl⟩ := List.mem_map.mp member
    exact ⟨_, modelled p present _ (standsFor_standFor narrative (matched.carried p present)), made⟩

end Returns

/-! ### A user and a person -/

section Example

/-- Two ambiguous words stand for the user of the model, as an exact one does. -/
theorem twoAmbiguities_sound : ∃ stack network t,
    (apply plainSetting (fun _ => ⟨0, by decide⟩) stack (narrativeOf 2) userModel).run
        (wordsFor 2) = .ok (some network) t ∧
      ∀ it ∈ network.nodes, ∃ m ∈ userModel.nodes, InstanceOf (wordsFor 2) t m it := by
  have holds : (wordsFor 2).HasNetwork userModel := ⟨by decide +kernel, by decide +kernel⟩
  have exist : ∀ p ∈ phrasesOf (narrativeOf 2), ∀ c ∈ ((wordsFor 2).phrase p).concepts,
      c < (wordsFor 2).concepts.size := by decide +kernel
  have matched : Matched plainSetting.textCase (wordsFor 2) (narrativeOf 2) userModel :=
    matched_of_carried (wellFormed_withPhrases _) holds exist (by decide +kernel)
      (by decide +kernel) (by decide +kernel) (by decide +kernel)
  obtain ⟨stack, network, t, run⟩ := matched.exists_stack_returns (fun _ => ⟨0, by decide⟩)
    (exists_hashed_iff.mpr (Or.inl (by decide +kernel))) (instantiable_user _ _)
  obtain ⟨-, -, -, network', same, known, -⟩ := matched.of_returns run
  obtain rfl := Option.some.inj same
  refine ⟨stack, network, t, run,
    (sound_iff (wellFormed_withPhrases _) holds exist run known).mpr fun p member c stands => ?_⟩
  obtain rfl := stands.unique (standsFor_standFor _ (matched.carried p member))
  have all : ∀ p ∈ hasMatches plainSetting.textCase (wordsFor 2) (narrativeOf 2) userModel,
      standFor (wordsFor 2) (narrativeOf 2) p ∈ userModel.nodes := by decide +kernel
  exact all p member

/-- A word that has been annotated with the person, who is no node of the model. -/
def foreignWord : Heap :=
  { userAndPerson with phrases := .ofList [{ concepts := [0], text := "someone" }] }

/-- The result is an instance of the person. -/
theorem foreignWord_not_sound : ∃ stack network t,
    (apply plainSetting (fun _ => ⟨0, by decide⟩) stack oneWord userModel).run foreignWord =
        .ok (some network) t ∧
      network.notKnownPhrases = [] ∧
        ¬ ∀ it ∈ network.nodes, ∃ m ∈ userModel.nodes, InstanceOf foreignWord t m it := by
  have holds : foreignWord.HasNetwork userModel := ⟨by decide +kernel, by decide +kernel⟩
  have matched : Matched plainSetting.textCase foreignWord oneWord userModel :=
    matched_of_carried (wellFormed_withPhrases _) holds (by decide +kernel) (by decide +kernel)
      (by decide +kernel) (by decide +kernel) (by decide +kernel)
  obtain ⟨stack, network, t, run⟩ := matched.exists_stack_returns (fun _ => ⟨0, by decide⟩)
    (exists_hashed_iff.mpr (Or.inl (by decide +kernel))) (instantiable_user _ _)
  obtain ⟨-, -, -, network', same, known, nodes, -⟩ := matched.of_returns run
  obtain rfl := Option.some.inj same
  refine ⟨stack, network, t, run, known, fun sound => ?_⟩
  have person : matching plainSetting.textCase foreignWord oneWord userModel = [0] := by
    decide +kernel
  obtain ⟨it, inside, made⟩ := exists_of_mem_left nodes (person ▸ List.mem_singleton_self 0)
  obtain ⟨m, node, made'⟩ := sound it inside
  obtain rfl := made.parent_unique made'
  exact absurd node (by decide)

end Example

end Simulation

end ThinkingUnderstanding
