import ThinkingUnderstanding.Simulation.Totality

/-!
# Does a simulation cover the text?

A simulation of a narrative in which every phrase carries a concept, and one has exactly one
match, should return a network with an instance of a concept of every phrase. It does for every
narrative and model, unless one of its recursions has no end or a text is refused. Phrases are
hashed as keys when more than four are ambiguous, and then those need hash codes, which phrases of
linked concepts don't have. The search for links has to come to an end above the concepts it
starts from, and `java.net.URI` has to accept the names of the links that get instances.

## Main definitions

* `Simulation.Simulable` — what is taken for granted of a narrative and a model
* `Simulation.Covers` — every simulation returns a network of instances for the phrases
* `Simulation.Coverable` — the condition

## Main results

* `covers_iff` — a simulation covers the text exactly on the condition
-/

namespace ThinkingUnderstanding

open Math Semantics

namespace Simulation

/-- Every phrase carries a concept, one phrase has exactly one match, and what the phrases and
the model refer to exists. No phrase is unknown then. -/
structure Simulable (textCase : TextCase) (heap : Heap) (narrative : AnnotatedNarrative)
    (simulationModel : ConceptNetwork) : Prop where
  wellFormed : heap.WellFormed
  model : heap.HasNetwork simulationModel
  exist : ∀ p ∈ phrasesOf narrative, ∀ c ∈ (heap.phrase p).concepts, c < heap.concepts.size
  carried : Carried heap narrative
  exact_ : exactMatch textCase heap narrative simulationModel ≠ []

/-- The nodes of the network are new instances, one after the other, of a concept of each phrase
that has matches, which has at least as many links into the narrative as any of its concepts. -/
structure Represents (textCase : TextCase) (heap t : Heap) (narrative : AnnotatedNarrative)
    (simulationModel : ConceptNetwork) (network : SimulatedNetwork) : Prop where
  nodes : List.Forall₂ (fun p it => ∃ c ∈ (heap.phrase p).concepts,
    (∀ d ∈ (heap.phrase p).concepts, heap.countLinks d (heap.conceptsOfNarrative narrative) ≤
      heap.countLinks c (heap.conceptsOfNarrative narrative)) ∧ InstanceOf heap t c it)
    (hasMatches textCase heap narrative simulationModel) network.nodes
  newer : network.nodes.Pairwise (· < ·)

/-- Whatever numbers are drawn, the simulation returns a network that represents the narrative,
and it never throws an `UnexpectedException`. -/
structure Covers (setting : SimulationSetting) (heap : Heap) (narrative : AnnotatedNarrative)
    (simulationModel : ConceptNetwork) : Prop where
  returns : ∀ draws, ∃ stack network t,
    (apply setting draws stack narrative simulationModel).run heap = .ok (some network) t ∧
      Represents setting.textCase heap t narrative simulationModel network
  expected : ∀ draws stack message t,
    (apply setting draws stack narrative simulationModel).run heap ≠
      .error (.unexpectedException message) t

/-- The ambiguous phrases can be keys of a map, the search for links ends, and the texts of the
URIs of the new links and of the network are accepted. The concepts are those that stand for the
phrases. -/
structure Coverable (setting : SimulationSetting) (heap : Heap) (narrative : AnnotatedNarrative)
    (simulationModel : ConceptNetwork) : Prop where
  hashed : (ambiguous setting.textCase heap narrative simulationModel).toFinset.card ≤ 4 ∨
    ∀ p ∈ ambiguous setting.textCase heap narrative simulationModel,
      HashTerminates setting.mix heap (.phrase p)
  ends : ∀ concepts, List.Forall₂ (StandsFor heap narrative) (phrasesOf narrative) concepts →
    ∀ c ∈ concepts, ∀ m,
      (heap.getNodeByName simulationModel (heap.uriOf c).name).head? = some m →
        heap.EndsAbove m ∧ ∀ g, heap.Ancestor m g → (heap.concept g).conceptLinks ≠ [] →
          ∀ d ∈ concepts, heap.EndsAbove d
  accepted : ∀ concepts, List.Forall₂ (StandsFor heap narrative) (phrasesOf narrative) concepts →
    ∀ before c after, concepts = before ++ c :: after → ∀ l,
      heap.IsTakenOver setting.textCase simulationModel concepts before c l → ∀ uID,
        setting.platform.acceptsURI
          ({ name := instanceLinkName (heap.linkName l) uID } : KnowledgeURI).format
  named : setting.platform.acceptsURI ({ name := "Simulation" } : KnowledgeURI).format

variable {setting : SimulationSetting} {heap t : Heap} {narrative : AnnotatedNarrative}
  {simulationModel : ConceptNetwork} {draws : Draws} {stack : ℕ}

namespace Simulable

variable (simulable : Simulable setting.textCase heap narrative simulationModel)

include simulable

/-- A simulation of such a narrative comes to the creation of instances. -/
theorem matched : Matched setting.textCase heap narrative simulationModel where
  wellFormed := simulable.wellFormed
  model := simulable.model
  exist p member := simulable.exist p (mem_hasMatches_iff.mp member).1
  carried := simulable.carried.matches
  allKnown := notKnown_eq_nil simulable.carried
  known := simulable.exact_

/-- A result represents the narrative. -/
theorem represents {network : SimulatedNetwork}
    (run : (apply setting draws stack narrative simulationModel).run heap = .ok (some network) t) :
    Represents setting.textCase heap t narrative simulationModel network := by
  obtain ⟨-, -, -, network', same, -, nodes, newer⟩ := simulable.matched.of_returns run
  obtain rfl := Option.some.inj same
  refine ⟨?_, newer⟩
  rw [matching, List.forall₂_map_left_iff] at nodes
  have stand := (List.forall₂_and_left _ _).mpr ⟨fun p member =>
    standsFor_standFor narrative (simulable.matched.carried p member), nodes⟩
  exact stand.imp fun p it both => ⟨_, both.1.mem, fun d member => both.1.le member, both.2⟩

/-- The condition is that the ambiguous phrases can be keys of a map, and that instances can be
made. -/
theorem coverable_iff : Coverable setting heap narrative simulationModel ↔
    (∃ stack, Hashed setting heap narrative simulationModel stack) ∧
      Instantiable setting heap narrative simulationModel := by
  have same : hasMatches setting.textCase heap narrative simulationModel = phrasesOf narrative :=
    hasMatches_eq simulable.carried
  rw [exists_hashed_iff]
  constructor
  · intro coverable
    refine ⟨coverable.hashed, ?_, ?_, coverable.named⟩
    · rw [same]
      exact coverable.ends
    · rw [same]
      exact coverable.accepted
  · rintro ⟨hashed, instantiable⟩
    have ends := instantiable.ends
    have accepted := instantiable.accepted
    rw [same] at ends accepted
    exact ⟨hashed, ends, accepted, instantiable.named⟩

end Simulable

/-- A simulation covers the text exactly when more than four ambiguous phrases have hash codes,
the generalisations above what is searched for links end, and the texts are accepted. -/
theorem covers_iff (simulable : Simulable setting.textCase heap narrative simulationModel) :
    Covers setting heap narrative simulationModel ↔
      Coverable setting heap narrative simulationModel := by
  rw [simulable.coverable_iff]
  constructor
  · intro covers
    have returns : ∀ draws, ∃ stack result t,
        (apply setting draws stack narrative simulationModel).run heap = .ok result t := by
      intro draws
      obtain ⟨stack, network, t, run, -⟩ := covers.returns draws
      exact ⟨stack, some network, t, run⟩
    obtain ⟨stack, result, t, run⟩ := returns fun _ => ⟨0, by decide⟩
    exact ⟨⟨stack, (simulable.matched.of_returns run).1⟩,
      simulable.matched.instantiable_of_returns returns⟩
  · rintro ⟨hashed, instantiable⟩
    refine ⟨fun draws => ?_, fun draws stack message t run => ?_⟩
    · obtain ⟨stack, network, t, run⟩ :=
        simulable.matched.exists_stack_returns draws hashed instantiable
      exact ⟨stack, network, t, run, simulable.represents run⟩
    · rcases simulable.matched.of_error run with overflow | ⟨⟨input, refused⟩, -⟩
      · cases overflow
      · cases refused

/-! ### A user and a person -/

section Example

/-- Two ambiguous words and an exact one are simulated. -/
theorem twoAmbiguities_covered : Covers plainSetting (wordsFor 2) (narrativeOf 2) userModel := by
  have simulable : Simulable plainSetting.textCase (wordsFor 2) (narrativeOf 2) userModel :=
    ⟨wellFormed_withPhrases _, ⟨by decide +kernel, by decide +kernel⟩, by decide +kernel,
      by unfold Carried; decide +kernel, by decide +kernel⟩
  exact (covers_iff simulable).mpr ⟨Or.inl (by decide +kernel),
    fun _ _ _ _ _ found => searchEnds_user _ found, fun _ _ _ _ _ _ _ _ _ => rfl, rfl⟩

/-- Every word of five means the user or the person, and one more the user. The five are hashed,
and with them the two concepts, which have each other in their lines of knowledge. -/
theorem fiveAmbiguities_not_covered :
    Simulable plainSetting.textCase (wordsFor 5) (narrativeOf 5) userModel ∧
      ¬ Covers plainSetting (wordsFor 5) (narrativeOf 5) userModel := by
  have simulable : Simulable plainSetting.textCase (wordsFor 5) (narrativeOf 5) userModel :=
    ⟨wellFormed_withPhrases _, ⟨by decide +kernel, by decide +kernel⟩, by decide +kernel,
      by unfold Carried; decide +kernel, by decide +kernel⟩
  refine ⟨simulable, fun covers => ?_⟩
  obtain ⟨stack, network, t, run, -⟩ := covers.returns fun _ => ⟨0, by decide⟩
  obtain ⟨hashed, -⟩ := simulable.matched.of_returns run
  let circle : List HashedObject :=
    [.phrase 1, .concept 0, .conceptLine 1, .concept 1, .conceptLine 2]
  have turns : ∀ a ∈ circle, ∃ b ∈ a.fields (wordsFor 5), b ∈ circle := by decide +kernel
  rcases hashed_iff.mp hashed with few | all
  · exact absurd few (by decide +kernel)
  · have short := all 1 (by decide +kernel)
    exact not_acc_of_exists_next turns (by decide +kernel)
      (exists_not_hasWalk_iff_acc.mp ⟨stack, short⟩)

end Example

end Simulation

end ThinkingUnderstanding
