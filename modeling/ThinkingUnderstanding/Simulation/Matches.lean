import ThinkingUnderstanding.Math.LastMaximum
import ThinkingUnderstanding.Simulation.Instantiation

/-!
# The phrases of a narrative and their concepts

Exactly the phrases with several matches are keys of the map that resolves ambiguities. So where
every phrase with a match carries a concept, one concept is found for each of them: the last one
of those with the most links into the narrative. A phrase with one match has one concept then,
which is that. A phrase that has a match in the model only makes the simulation fail.

## Main definitions

* `Simulation.phrasesOf` — the phrases of a narrative, in the order of the text
* `Simulation.StandsFor` — the concept that is found for a phrase
* `Simulation.Carried`, `Simulation.MatchesCarried` — every phrase carries a concept, and every
  phrase with a match does

## Main results

* `run_apply_of_hashed` — what is left to do when every phrase with a match has a concept
* `run_apply_of_unresolved`, `run_apply_of_not_hashed`, `run_apply_of_notKnown`,
  `run_apply_of_no_exactMatch`, `run_apply_of_headless` — how the simulation ends otherwise
-/

namespace ThinkingUnderstanding

open Math Semantics

namespace Simulation

/-- The phrases of a narrative, in the order of the text. -/
def phrasesOf (narrative : AnnotatedNarrative) : List PhraseRef :=
  (narrative.sentences.map AnnotatedSentence.phrases).flatten

/-- The concept is the last of those of the phrase with the most links to concepts of the
narrative. -/
def StandsFor (heap : Heap) (narrative : AnnotatedNarrative) (p : PhraseRef) (c : ConceptRef) :
    Prop :=
  LastMax (fun d => heap.countLinks d (heap.conceptsOfNarrative narrative))
    (heap.phrase p).concepts c

/-- Every phrase carries a concept. -/
def Carried (heap : Heap) (narrative : AnnotatedNarrative) : Prop :=
  ∀ p ∈ phrasesOf narrative, (heap.phrase p).concepts ≠ []

/-- Every phrase with a match carries a concept. -/
def MatchesCarried (textCase : TextCase) (heap : Heap) (narrative : AnnotatedNarrative)
    (simulationModel : ConceptNetwork) : Prop :=
  ∀ p ∈ hasMatches textCase heap narrative simulationModel, (heap.phrase p).concepts ≠ []

/-- The concept that stands for a phrase, as `reduceLeft` finds it. -/
def standFor (heap : Heap) (narrative : AnnotatedNarrative) (p : PhraseRef) : ConceptRef :=
  (heap.mostReferenced (heap.conceptsOfNarrative narrative) (heap.phrase p).concepts).getD 0

/-- The concepts that stand for the phrases of a narrative. -/
def standing (heap : Heap) (narrative : AnnotatedNarrative) : List ConceptRef :=
  (phrasesOf narrative).map (standFor heap narrative)

/-- The concepts that stand for the phrases with a match. -/
def matching (textCase : TextCase) (heap : Heap) (narrative : AnnotatedNarrative)
    (simulationModel : ConceptNetwork) : List ConceptRef :=
  (hasMatches textCase heap narrative simulationModel).map (standFor heap narrative)

/-- The ambiguous phrases with their most referenced concepts. -/
def mostReferencedConcepts (textCase : TextCase) (heap : Heap) (narrative : AnnotatedNarrative)
    (simulationModel : ConceptNetwork) : List (PhraseRef × ConceptRef) :=
  (ambiguous textCase heap narrative simulationModel).map fun p => (p, standFor heap narrative p)

variable {heap : Heap} {narrative : AnnotatedNarrative} {simulationModel : ConceptNetwork}
  {textCase : TextCase} {p : PhraseRef} {c : ConceptRef}

/-! ### The four filters -/

theorem filteredPhrases_eq (keep : PhraseRef → Bool) :
    filteredPhrases narrative keep = (phrasesOf narrative).filter keep := by
  rw [filteredPhrases, phrasesOf, List.filter_flatten, List.map_map]
  rfl

theorem length_filterPhrase_pos (carried : Carried heap narrative)
    (member : p ∈ phrasesOf narrative) :
    0 < (filterPhrase textCase heap simulationModel p).length := by
  rw [filterPhrase, Heap.getNodeByPhrase, List.length_append]
  exact Nat.add_pos_left (List.length_pos_iff.mpr (carried p member)) _

/-- Every phrase has a match. -/
theorem hasMatches_eq (carried : Carried heap narrative) :
    hasMatches textCase heap narrative simulationModel = phrasesOf narrative := by
  rw [hasMatches, filteredPhrases_eq, List.filter_eq_self]
  exact fun p member => decide_eq_true (length_filterPhrase_pos carried member)

/-- No phrase is unknown. -/
theorem notKnown_eq_nil (carried : Carried heap narrative) :
    notKnown textCase heap narrative simulationModel = [] := by
  rw [notKnown, filteredPhrases_eq, List.filter_eq_nil_iff]
  intro p member none
  have some : 0 < (filterPhrase textCase heap simulationModel p).length :=
    length_filterPhrase_pos carried member
  have both := of_decide_eq_true none
  omega

theorem Carried.matches (carried : Carried heap narrative) :
    MatchesCarried textCase heap narrative simulationModel := by
  rw [MatchesCarried, hasMatches_eq carried]
  exact carried

theorem Carried.matching_eq (carried : Carried heap narrative) :
    matching textCase heap narrative simulationModel = standing heap narrative := by
  rw [matching, hasMatches_eq carried, standing]

theorem mem_hasMatches_iff : p ∈ hasMatches textCase heap narrative simulationModel ↔
    p ∈ phrasesOf narrative ∧ 0 < (filterPhrase textCase heap simulationModel p).length := by
  rw [hasMatches, filteredPhrases_eq, List.mem_filter, decide_eq_true_iff]

theorem mem_exactMatch_iff : p ∈ exactMatch textCase heap narrative simulationModel ↔
    p ∈ phrasesOf narrative ∧ (filterPhrase textCase heap simulationModel p).length = 1 := by
  rw [exactMatch, filteredPhrases_eq, List.mem_filter, decide_eq_true_iff]

theorem mem_ambiguous_iff : p ∈ ambiguous textCase heap narrative simulationModel ↔
    p ∈ phrasesOf narrative ∧ 1 < (filterPhrase textCase heap simulationModel p).length := by
  rw [ambiguous, filteredPhrases_eq, List.mem_filter, decide_eq_true_iff]

/-- A phrase with a match has exactly one, or is ambiguous. -/
theorem mem_hasMatches_iff_or : p ∈ hasMatches textCase heap narrative simulationModel ↔
    p ∈ exactMatch textCase heap narrative simulationModel ∨
      p ∈ ambiguous textCase heap narrative simulationModel := by
  rw [mem_hasMatches_iff, mem_exactMatch_iff, mem_ambiguous_iff, ← and_or_left]
  refine and_congr_right fun _ => ?_
  omega

/-! ### The concept of a phrase -/

theorem mostReferenced_eq (narrative : AnnotatedNarrative)
    (carries : (heap.phrase p).concepts ≠ []) :
    heap.mostReferenced (heap.conceptsOfNarrative narrative) (heap.phrase p).concepts =
      some (standFor heap narrative p) := by
  rw [standFor]
  cases concepts : (heap.phrase p).concepts with
  | nil => exact absurd concepts carries
  | cons c rest => rfl

theorem standsFor_standFor (narrative : AnnotatedNarrative)
    (carries : (heap.phrase p).concepts ≠ []) :
    StandsFor heap narrative p (standFor heap narrative p) := by
  rw [StandsFor, standFor]
  cases concepts : (heap.phrase p).concepts with
  | nil => exact absurd concepts carries
  | cons c rest => exact lastMax_foldl _ c rest

/-- The concepts that stand for phrases are determined. -/
theorem forall₂_standsFor_iff {phrases : List PhraseRef}
    (carried : ∀ p ∈ phrases, (heap.phrase p).concepts ≠ []) {chosen : List ConceptRef} :
    List.Forall₂ (StandsFor heap narrative) phrases chosen ↔
      chosen = phrases.map (standFor heap narrative) := by
  have all : List.Forall₂ (StandsFor heap narrative) phrases
      (phrases.map (standFor heap narrative)) := by
    rw [List.forall₂_map_right_iff, List.forall₂_same]
    exact fun p member => standsFor_standFor narrative (carried p member)
  constructor
  · intro stand
    exact List.right_unique_forall₂' (fun _ _ _ first second => first.unique second) stand all
  · rintro rfl
    exact all

/-- The concept of a phrase with one match is the one that stands for it. -/
theorem concepts_eq_of_exactMatch (carries : (heap.phrase p).concepts ≠ [])
    (exact_ : p ∈ exactMatch textCase heap narrative simulationModel) :
    (heap.phrase p).concepts = [standFor heap narrative p] := by
  rw [mem_exactMatch_iff, filterPhrase, Heap.getNodeByPhrase, List.length_append] at exact_
  have some := List.length_pos_iff.mpr carries
  have one : (heap.phrase p).concepts.length = 1 := by omega
  obtain ⟨c, only⟩ := List.length_eq_one_iff.mp one
  have stands := (standsFor_standFor narrative carries).mem
  rw [only, List.mem_singleton] at stands
  rw [only, stands]

/-! ### The map of the ambiguous phrases -/

variable {setting : SimulationSetting} {draws : Draws} {stack : ℕ}

theorem map_fst_mostReferencedConcepts :
    (mostReferencedConcepts textCase heap narrative simulationModel).map Prod.fst =
      ambiguous textCase heap narrative simulationModel := by
  rw [mostReferencedConcepts, List.map_map]
  exact List.map_id _

theorem get?_unAmbiguous (ambiguous_ : p ∈ ambiguous textCase heap narrative simulationModel) :
    (InsertionMap.ofList (mostReferencedConcepts textCase heap narrative simulationModel)).get? p =
      some (standFor heap narrative p) := by
  rw [InsertionMap.get?_eq_some_iff]
  have entry : (p, standFor heap narrative p) ∈
      mostReferencedConcepts textCase heap narrative simulationModel :=
    List.mem_map_of_mem ambiguous_
  obtain ⟨c, present⟩ := InsertionMap.exists_mem_entries_ofList entry
  obtain ⟨q, -, same⟩ := List.mem_map.mp (InsertionMap.mem_of_mem_entries_ofList present)
  obtain ⟨rfl, rfl⟩ := Prod.mk.inj same
  exact present

/-- The most referenced concept of an ambiguous phrase. -/
def mostReferencedPair (heap : Heap) (narrative : AnnotatedNarrative) (phrase : PhraseRef) :
    SimulationProgram (PhraseRef × ConceptRef) :=
  match heap.mostReferenced (heap.conceptsOfNarrative narrative) (heap.phrase phrase).concepts with
  | some concept => return (phrase, concept)
  | none => throw (.unsupportedOperationException "empty.reduceLeft")

theorem run_mostReferencedPair (narrative : AnnotatedNarrative)
    (carries : (heap.phrase p).concepts ≠ []) (t : Heap) :
    (mostReferencedPair heap narrative p).run t = .ok (p, standFor heap narrative p) t := by
  rw [mostReferencedPair, mostReferenced_eq narrative carries]
  rfl

theorem run_mostReferencedPair_of_eq_nil (narrative : AnnotatedNarrative)
    (none : (heap.phrase p).concepts = []) (t : Heap) :
    (mostReferencedPair heap narrative p).run t =
      .error (.unsupportedOperationException "empty.reduceLeft") t := by
  rw [mostReferencedPair, none]
  rfl

/-- The ambiguities are resolved where every ambiguous phrase carries a concept, and the phrases
can be keys of a map. -/
theorem run_processAmbiguousBackReferences (setting : SimulationSetting) (stack : ℕ)
    (simulationModel : ConceptNetwork)
    (carried : ∀ p ∈ ambiguous setting.textCase heap narrative simulationModel,
      (heap.phrase p).concepts ≠ []) :
    (processAmbiguousBackReferences setting stack
      (ambiguous setting.textCase heap narrative simulationModel) narrative).run heap =
        match toMap (hashPhrase setting stack heap)
          (mostReferencedConcepts setting.textCase heap narrative simulationModel) with
        | some unAmbiguous => .ok unAmbiguous heap
        | none => .error (.graph .stackOverflow) heap := by
  have pairs := run_mapM_of_forall fun p member =>
    run_mostReferencedPair narrative (carried p member) heap
  change ((ambiguous setting.textCase heap narrative simulationModel).mapM
    (mostReferencedPair heap narrative) >>= fun pairs =>
      match toMap (hashPhrase setting stack heap) pairs with
      | some unAmbiguous => pure unAmbiguous
      | none => throw (.graph .stackOverflow)).run heap = _
  rw [EStateM.run_bind, pairs]
  change (match toMap (hashPhrase setting stack heap)
      (mostReferencedConcepts setting.textCase heap narrative simulationModel) with
    | some unAmbiguous => pure unAmbiguous
    | none => throw (.graph .stackOverflow) :
      SimulationProgram (InsertionMap PhraseRef ConceptRef)).run heap = _
  cases toMap (hashPhrase setting stack heap)
    (mostReferencedConcepts setting.textCase heap narrative simulationModel) <;> rfl

/-- `reduceLeft` of no concepts fails. -/
theorem run_processAmbiguousBackReferences_of_unresolved (setting : SimulationSetting) (stack : ℕ)
    (simulationModel : ConceptNetwork)
    (unresolved : ∃ p ∈ ambiguous setting.textCase heap narrative simulationModel,
      (heap.phrase p).concepts = []) :
    (processAmbiguousBackReferences setting stack
      (ambiguous setting.textCase heap narrative simulationModel) narrative).run heap =
        .error (.unsupportedOperationException "empty.reduceLeft") heap := by
  have pairs : ((ambiguous setting.textCase heap narrative simulationModel).mapM
      (mostReferencedPair heap narrative)).run heap =
        .error (.unsupportedOperationException "empty.reduceLeft") heap := by
    apply run_mapM_of_error
    · intro p _
      by_cases none : (heap.phrase p).concepts = []
      · exact Or.inr (run_mostReferencedPair_of_eq_nil narrative none heap)
      · exact Or.inl (run_mostReferencedPair narrative none heap)
    · obtain ⟨p, member, none⟩ := unresolved
      exact ⟨p, member, run_mostReferencedPair_of_eq_nil narrative none heap⟩
  change ((ambiguous setting.textCase heap narrative simulationModel).mapM
    (mostReferencedPair heap narrative) >>= fun _ => _).run heap = _
  rw [EStateM.run_bind, pairs]

/-! ### The concept of a match -/

section Matches

variable (hashed : (toMap (hashPhrase setting stack heap)
  (mostReferencedConcepts setting.textCase heap narrative simulationModel)).isSome)

include hashed

theorem run_conceptOfMatch_of_ambiguous
    (several : p ∉ exactMatch setting.textCase heap narrative simulationModel)
    (ambiguous_ : p ∈ ambiguous setting.textCase heap narrative simulationModel) :
    (conceptOfMatch setting stack (exactMatch setting.textCase heap narrative simulationModel)
      (.ofList (mostReferencedConcepts setting.textCase heap narrative simulationModel)) p).run
        heap =
        .ok (standFor heap narrative p) heap := by
  have asked : (getUnAmbiguous setting stack (.ofList (mostReferencedConcepts setting.textCase heap
      narrative simulationModel)) p).run heap = .ok (some (standFor heap narrative p)) heap := by
    have found := mapGet_eq_some (hashPhrase setting stack heap) hashed
      (map_fst_mostReferencedConcepts.symm ▸ ambiguous_)
    rw [get?_unAmbiguous ambiguous_] at found
    simp only [getUnAmbiguous, EStateM.run_bind, EStateM.run_get, found]
    rfl
  rw [conceptOfMatch, if_neg several, EStateM.run_bind, asked]
  dsimp only
  rw [if_pos Option.isSome_some, EStateM.run_bind, asked]
  rfl

/-- For every phrase with a match that carries a concept, the concept is found that stands for
it. -/
theorem run_conceptOfMatch (carries : (heap.phrase p).concepts ≠ [])
    (member : p ∈ hasMatches setting.textCase heap narrative simulationModel) :
    (conceptOfMatch setting stack (exactMatch setting.textCase heap narrative simulationModel)
      (.ofList (mostReferencedConcepts setting.textCase heap narrative simulationModel)) p).run
        heap =
        .ok (standFor heap narrative p) heap := by
  by_cases exact_ : p ∈ exactMatch setting.textCase heap narrative simulationModel
  · simp only [conceptOfMatch, if_pos exact_, EStateM.run_bind, EStateM.run_get,
      concepts_eq_of_exactMatch carries exact_]
    rfl
  · exact run_conceptOfMatch_of_ambiguous hashed exact_
      ((mem_hasMatches_iff_or.mp member).resolve_left exact_)

end Matches

theorem run_conceptOfMatch_of_headless (unAmbiguous : InsertionMap PhraseRef ConceptRef)
    (none : (heap.phrase p).concepts = [])
    (exact_ : p ∈ exactMatch setting.textCase heap narrative simulationModel) :
    (conceptOfMatch setting stack (exactMatch setting.textCase heap narrative simulationModel)
      unAmbiguous p).run heap = .error (.noSuchElementException "head of empty list") heap := by
  simp only [conceptOfMatch, if_pos exact_, EStateM.run_bind, EStateM.run_get, none]
  rfl

/-! ### What is left to do -/

/-- Where an ambiguous phrase carries no concept, the simulation ends with it. -/
theorem run_apply_of_unresolved
    (unresolved : ∃ p ∈ ambiguous setting.textCase heap narrative simulationModel,
      (heap.phrase p).concepts = []) :
    (apply setting draws stack narrative simulationModel).run heap =
      .error (.unsupportedOperationException "empty.reduceLeft") heap := by
  have ambiguities :=
    run_processAmbiguousBackReferences_of_unresolved setting stack simulationModel unresolved
  change (processAmbiguousBackReferences setting stack
    (ambiguous setting.textCase heap narrative simulationModel) narrative >>=
      fun _ => _).run heap = _
  rw [EStateM.run_bind, ambiguities]

section Resolved

variable (resolved : ∀ p ∈ ambiguous setting.textCase heap narrative simulationModel,
  (heap.phrase p).concepts ≠ [])

include resolved

/-- Where some of more than four ambiguous phrases cannot be hashed, the simulation ends with
it. -/
theorem run_apply_of_not_hashed
    (overflows : ¬ (toMap (hashPhrase setting stack heap)
      (mostReferencedConcepts setting.textCase heap narrative simulationModel)).isSome) :
    (apply setting draws stack narrative simulationModel).run heap =
      .error (.graph .stackOverflow) heap := by
  have ambiguities := run_processAmbiguousBackReferences setting stack simulationModel resolved
  rw [Option.not_isSome_iff_eq_none.mp overflows] at ambiguities
  change (processAmbiguousBackReferences setting stack
    (ambiguous setting.textCase heap narrative simulationModel) narrative >>=
      fun _ => _).run heap = _
  rw [EStateM.run_bind, ambiguities]

variable (hashed : (toMap (hashPhrase setting stack heap)
  (mostReferencedConcepts setting.textCase heap narrative simulationModel)).isSome)

include hashed

/-- When the map is made, it is asked which phrases are unknown, and which have one match. -/
theorem run_apply_of_resolved : (apply setting draws stack narrative simulationModel).run heap =
    (if (notKnown setting.textCase heap narrative simulationModel).length > 0 then do
      let network ← createNetwork [] [] "NotKnownConceptsHolder"
      return some { network with
        notKnownPhrases := notKnown setting.textCase heap narrative simulationModel }
    else if (exactMatch setting.textCase heap narrative simulationModel).length > 0 then do
      return some (← processMatches setting draws stack
        (hasMatches setting.textCase heap narrative simulationModel)
        (exactMatch setting.textCase heap narrative simulationModel)
        (.ofList (mostReferencedConcepts setting.textCase heap narrative simulationModel))
        simulationModel)
    else return none : SimulationProgram (Option SimulatedNetwork)).run heap := by
  have ambiguities := run_processAmbiguousBackReferences setting stack simulationModel resolved
  rw [toMap_eq_some _ hashed] at ambiguities
  change (processAmbiguousBackReferences setting stack
    (ambiguous setting.textCase heap narrative simulationModel) narrative >>= fun unAmbiguous =>
      _).run heap = _
  rw [EStateM.run_bind, ambiguities]

variable (draws) in
/-- With unknown phrases the result is a network that keeps them. -/
theorem run_apply_of_notKnown
    (unknown : notKnown setting.textCase heap narrative simulationModel ≠ []) :
    ∃ network t, (apply setting draws stack narrative simulationModel).run heap =
      .ok (some network) t ∧
        network.notKnownPhrases = notKnown setting.textCase heap narrative simulationModel := by
  rw [run_apply_of_resolved resolved hashed, if_pos (List.length_pos_iff.mpr unknown)]
  exact ⟨_, _, rfl, rfl⟩

variable (allKnown : notKnown setting.textCase heap narrative simulationModel = [])

include allKnown

/-- Without a phrase that has exactly one match there is no result. -/
theorem run_apply_of_no_exactMatch
    (inexact : exactMatch setting.textCase heap narrative simulationModel = []) :
    (apply setting draws stack narrative simulationModel).run heap = .ok none heap := by
  have noPhrase : ¬ ([] : List PhraseRef).length > 0 := Nat.lt_irrefl 0
  rw [run_apply_of_resolved resolved hashed, allKnown, inexact, if_neg noPhrase, if_neg noPhrase]
  rfl

/-- `head` of no concepts fails. -/
theorem run_apply_of_headless
    (headless : ∃ p ∈ exactMatch setting.textCase heap narrative simulationModel,
      (heap.phrase p).concepts = []) :
    (apply setting draws stack narrative simulationModel).run heap =
      .error (.noSuchElementException "head of empty list") heap := by
  have concepts : ((hasMatches setting.textCase heap narrative simulationModel).mapM
      (conceptOfMatch setting stack (exactMatch setting.textCase heap narrative simulationModel)
        (.ofList (mostReferencedConcepts setting.textCase heap narrative simulationModel)))).run
          heap = .error (.noSuchElementException "head of empty list") heap := by
    apply run_mapM_of_error
    · intro p member
      by_cases carries : (heap.phrase p).concepts = []
      · -- a phrase without concepts is not ambiguous here
        rcases mem_hasMatches_iff_or.mp member with exact_ | several
        · exact Or.inr (run_conceptOfMatch_of_headless _ carries exact_)
        · exact absurd carries (resolved p several)
      · exact Or.inl (run_conceptOfMatch hashed carries member)
    · obtain ⟨p, exact_, none⟩ := headless
      exact ⟨p, mem_hasMatches_iff_or.mpr (Or.inl exact_),
        run_conceptOfMatch_of_headless _ none exact_⟩
  obtain ⟨p, member, -⟩ := headless
  have noPhrase : ¬ ([] : List PhraseRef).length > 0 := Nat.lt_irrefl 0
  rw [run_apply_of_resolved resolved hashed, allKnown, if_neg noPhrase,
    if_pos (List.length_pos_of_mem member), processMatches, bind_assoc, EStateM.run_bind, concepts]

end Resolved

/-- Otherwise instances are created of the concepts that stand for the phrases. -/
theorem run_apply_of_hashed
    (carried : MatchesCarried setting.textCase heap narrative simulationModel)
    (allKnown : notKnown setting.textCase heap narrative simulationModel = [])
    (known : exactMatch setting.textCase heap narrative simulationModel ≠ [])
    (hashed : (toMap (hashPhrase setting stack heap)
      (mostReferencedConcepts setting.textCase heap narrative simulationModel)).isSome) :
    (apply setting draws stack narrative simulationModel).run heap =
      (instantiateConcepts draws setting stack simulationModel
        (matching setting.textCase heap narrative simulationModel) "Simulation" >>= fun res =>
          networkToString setting.platform res.toConceptNetwork >>= fun _ =>
            pure (some res)).run heap := by
  have resolved : ∀ p ∈ ambiguous setting.textCase heap narrative simulationModel,
      (heap.phrase p).concepts ≠ [] := fun p several =>
    carried p (mem_hasMatches_iff_or.mpr (Or.inr several))
  have concepts := run_mapM_of_forall fun p
    (member : p ∈ hasMatches setting.textCase heap narrative simulationModel) =>
      run_conceptOfMatch hashed (carried p member) member
  have noPhrase : ¬ ([] : List PhraseRef).length > 0 := Nat.lt_irrefl 0
  rw [run_apply_of_resolved resolved hashed, allKnown, if_neg noPhrase,
    if_pos (List.length_pos_iff.mpr known), processMatches, bind_assoc, EStateM.run_bind, concepts]
  dsimp only
  simp only [bind_assoc, pure_bind]
  rfl

end Simulation

end ThinkingUnderstanding
