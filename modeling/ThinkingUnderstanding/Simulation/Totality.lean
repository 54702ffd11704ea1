import ThinkingUnderstanding.Simulation.Outcome

/-!
# Does a simulation always end with a result?

A simulation of any narrative with any model should end with a result. It does unless it takes
the concept of a phrase that has none of its own: such a phrase has matches when the content of
nodes of the model is its text, and then `head` or `reduceLeft` fail. Beyond that the recursions
have to end, and the texts of URIs to be accepted, where the simulation comes to them.

## Main definitions

* `Simulation.Total` — the simulation returns on some stack, whatever numbers are drawn
* `Simulation.Instantiable` — the network of instances is made
* `Simulation.Answerable` — the condition

## Main results

* `Matched.of_returns`, `Matched.exists_returns`, `Matched.of_error` — how a simulation that comes
  to the creation of instances ends
* `total_iff` — a simulation is total exactly on the condition
-/

namespace ThinkingUnderstanding

open Math Semantics

namespace Simulation

/-- Whatever numbers are drawn, the simulation returns, and on no stack does it end with anything
but an overflow. -/
structure Total (setting : SimulationSetting) (heap : Heap) (narrative : AnnotatedNarrative)
    (simulationModel : ConceptNetwork) : Prop where
  returns : ∀ draws, ∃ stack result t,
    (apply setting draws stack narrative simulationModel).run heap = .ok result t
  fails : ∀ draws stack e t,
    (apply setting draws stack narrative simulationModel).run heap = .error e t →
      e = .graph .stackOverflow

/-- The search for links ends, and the texts of the URIs of the new links and of the network are
accepted. The concepts are those that stand for the phrases with matches. -/
structure Instantiable (setting : SimulationSetting) (heap : Heap) (narrative : AnnotatedNarrative)
    (simulationModel : ConceptNetwork) : Prop where
  ends : ∀ concepts, List.Forall₂ (StandsFor heap narrative)
      (hasMatches setting.textCase heap narrative simulationModel) concepts →
    ∀ c ∈ concepts, ∀ m,
      (heap.getNodeByName simulationModel (heap.uriOf c).name).head? = some m →
        heap.EndsAbove m ∧ ∀ g, heap.Ancestor m g → (heap.concept g).conceptLinks ≠ [] →
          ∀ d ∈ concepts, heap.EndsAbove d
  accepted : ∀ concepts, List.Forall₂ (StandsFor heap narrative)
      (hasMatches setting.textCase heap narrative simulationModel) concepts →
    ∀ before c after, concepts = before ++ c :: after → ∀ l,
      heap.IsTakenOver setting.textCase simulationModel concepts before c l → ∀ uID,
        setting.platform.acceptsURI
          ({ name := instanceLinkName (heap.linkName l) uID } : KnowledgeURI).format
  named : setting.platform.acceptsURI ({ name := "Simulation" } : KnowledgeURI).format

/-- Every ambiguous phrase carries a concept, and the ambiguous phrases can be keys of a map.
Where no phrase is unknown and some phrase has exactly one match, every such phrase carries a
concept too, and the network of instances is made. -/
structure Answerable (setting : SimulationSetting) (heap : Heap) (narrative : AnnotatedNarrative)
    (simulationModel : ConceptNetwork) : Prop where
  resolved : ∀ p ∈ ambiguous setting.textCase heap narrative simulationModel,
    (heap.phrase p).concepts ≠ []
  hashed : (ambiguous setting.textCase heap narrative simulationModel).toFinset.card ≤ 4 ∨
    ∀ p ∈ ambiguous setting.textCase heap narrative simulationModel,
      HashTerminates setting.mix heap (.phrase p)
  simulated : notKnown setting.textCase heap narrative simulationModel = [] →
    exactMatch setting.textCase heap narrative simulationModel ≠ [] →
      (∀ p ∈ exactMatch setting.textCase heap narrative simulationModel,
        (heap.phrase p).concepts ≠ []) ∧
      Instantiable setting heap narrative simulationModel

variable {setting : SimulationSetting} {heap t : Heap} {narrative : AnnotatedNarrative}
  {simulationModel : ConceptNetwork} {draws : Draws} {stack : ℕ} {links : List (List LinkRef)}

/-- An instance remains one when texts of URIs are made. -/
theorem InstanceOf.asked {parent it : ConceptRef} (made : InstanceOf heap t parent it) {t' : Heap}
    (same : t.SameGraph t') : InstanceOf heap t' parent it where
  new := made.new
  present := by
    rw [same.objects]
    exact made.present
  generalisations := by
    rw [same.objects]
    exact made.generalisations
  named := by
    have uri : (t'.concept it).uri = (t.concept it).uri := by rw [same.objects]; rfl
    rw [Heap.uriOf, uri, same.fields]
    exact made.named
  phrases := by
    rw [same.objects]
    exact made.phrases

namespace Matched

variable (matched : Matched setting.textCase heap narrative simulationModel)

include matched

/-- The concepts that stand for the phrases are those that instances are made of. -/
theorem eq_matching {concepts : List ConceptRef} :
    List.Forall₂ (StandsFor heap narrative)
        (hasMatches setting.textCase heap narrative simulationModel) concepts ↔
      concepts = matching setting.textCase heap narrative simulationModel :=
  forall₂_standsFor_iff matched.carried

/-- A simulation that comes to the creation of instances and returns has made the map, found the
links, and been given the texts. Its result is a network of instances. -/
theorem of_returns {result : Option SimulatedNetwork}
    (run : (apply setting draws stack narrative simulationModel).run heap = .ok result t) :
    Hashed setting heap narrative simulationModel stack ∧
      (∃ links, Linked setting heap narrative simulationModel stack links ∧
        ∀ l ∈ links.flatten, ∃ k, setting.platform.acceptsURI
          ({ name := instanceLinkName (heap.linkName l) (draws k) } : KnowledgeURI).format) ∧
      setting.platform.acceptsURI ({ name := "Simulation" } : KnowledgeURI).format ∧
      ∃ network, result = some network ∧ network.notKnownPhrases = [] ∧
        List.Forall₂ (InstanceOf heap t)
          (matching setting.textCase heap narrative simulationModel) network.nodes ∧
        network.nodes.Pairwise (· < ·) := by
  by_cases hashed : Hashed setting heap narrative simulationModel stack
  · by_cases linked : ∃ links, Linked setting heap narrative simulationModel stack links
    · obtain ⟨links, found⟩ := linked
      obtain ⟨network', t', result', known, run'⟩ :=
        matched.run_apply_of_links draws hashed found
      rw [EStateM.run_bind] at run'
      -- a run that returns has been given the text of every URI it logs
      by_cases accepted : ∀ u ∈ urisOfText t' network'.toConceptNetwork,
          (t'.uri u).Accepted setting.platform
      · obtain ⟨texts', t'', asked, same⟩ := run_uriTexts_of_accepted accepted
        rw [asked, run] at run'
        cases run'
        obtain ⟨texts, named⟩ := (accepted_urisOfText_iff result').mp accepted
        refine ⟨hashed, ⟨links, found, fun l member => ?_⟩, named, network', rfl, known, ?_,
          result'.newer⟩
        · obtain ⟨it, inside, linked⟩ := exists_of_mem_left result'.links member
          obtain ⟨k, uri⟩ := linked.uri
          exact ⟨k, uri ▸ texts it inside⟩
        · exact result'.nodes.imp fun _ _ made => made.asked same
      · obtain ⟨input, t'', refused⟩ := run_uriTexts_of_refused accepted
        rw [refused, run] at run'
        cases run'
    · obtain ⟨t', run'⟩ := matched.run_apply_of_no_links draws hashed linked
      rw [run] at run'
      cases run'
  · rw [run_apply_of_not_hashed matched.resolved hashed] at run
    cases run

/-- A simulation that has made the map and found the links returns, if the texts are accepted. -/
theorem exists_returns (draws : Draws)
    (hashed : Hashed setting heap narrative simulationModel stack)
    (found : Linked setting heap narrative simulationModel stack links)
    (accepted : ∀ l ∈ links.flatten, ∀ uID, setting.platform.acceptsURI
      ({ name := instanceLinkName (heap.linkName l) uID } : KnowledgeURI).format)
    (named : setting.platform.acceptsURI ({ name := "Simulation" } : KnowledgeURI).format) :
    ∃ network t, (apply setting draws stack narrative simulationModel).run heap =
      .ok (some network) t := by
  obtain ⟨network, t, result, -, run⟩ := matched.run_apply_of_links draws hashed found
  have texts : ∀ it ∈ network.links,
      setting.platform.acceptsURI (t.uri (t.link it).uri).format := by
    intro it member
    obtain ⟨l, inside, linked⟩ := exists_of_mem_right result.links member
    obtain ⟨k, uri⟩ := linked.uri
    rw [uri]
    exact accepted l inside (draws k)
  obtain ⟨texts', t', asked, -⟩ :=
    run_uriTexts_of_accepted ((accepted_urisOfText_iff result).mpr ⟨texts, named⟩)
  refine ⟨network, t', ?_⟩
  rw [run, EStateM.run_bind, asked]
  rfl

/-- Where instances can be made, some stack is deep enough, and the simulation returns on it. -/
theorem exists_stack_returns (draws : Draws)
    (hashed : ∃ stack, Hashed setting heap narrative simulationModel stack)
    (instantiable : Instantiable setting heap narrative simulationModel) :
    ∃ stack network t, (apply setting draws stack narrative simulationModel).run heap =
      .ok (some network) t := by
  have stand := matched.eq_matching.mpr rfl
  obtain ⟨n, hashed⟩ := hashed
  obtain ⟨m, linked⟩ := exists_stack_linked_iff.mpr (instantiable.ends _ stand)
  obtain ⟨links, found⟩ := Linked.of_le linked (le_max_right n m)
  refine ⟨max n m, matched.exists_returns draws (hashed.of_le (le_max_left n m)) found ?_
    instantiable.named⟩
  intro l member uID
  obtain ⟨before, c, after, split, taken⟩ := (mem_flatten_notProcessedEach_iff found).mp member
  exact instantiable.accepted _ stand before c after split l taken uID

/-- Where a simulation returns whatever numbers are drawn, instances can be made. -/
theorem instantiable_of_returns (returns : ∀ draws, ∃ stack result t,
    (apply setting draws stack narrative simulationModel).run heap = .ok result t) :
    Instantiable setting heap narrative simulationModel := by
  obtain ⟨stack, result, t, run⟩ := returns fun _ => ⟨0, by decide⟩
  obtain ⟨-, ⟨links, found, -⟩, named, -⟩ := matched.of_returns run
  refine ⟨fun concepts stands => ?_, fun concepts stands before c after split l taken uID => ?_,
    named⟩
  · obtain rfl := matched.eq_matching.mp stands
    exact exists_stack_linked_iff.mp ⟨stack, links, found⟩
  · obtain rfl := matched.eq_matching.mp stands
    -- the number may be the one that is drawn for the link
    obtain ⟨stack', result', t', run'⟩ := returns fun _ => uID
    obtain ⟨-, ⟨links', found', texts⟩, -⟩ := matched.of_returns run'
    obtain ⟨_, accepted⟩ := texts l
      ((mem_flatten_notProcessedEach_iff found').mpr ⟨before, c, after, split, taken⟩)
    exact accepted

/-- A simulation that comes to the creation of instances ends with an overflow of the stack or
with a text that is refused, if it does not return. -/
theorem of_error {e : SimulationFailure}
    (run : (apply setting draws stack narrative simulationModel).run heap = .error e t) :
    e = .graph .stackOverflow ∨
      (∃ input, e = .uriSyntaxException input) ∧
        ¬ Instantiable setting heap narrative simulationModel := by
  by_cases hashed : Hashed setting heap narrative simulationModel stack
  · by_cases linked : ∃ links, Linked setting heap narrative simulationModel stack links
    · obtain ⟨links, found⟩ := linked
      -- with hash codes and links, only a URI without a text is left to fail
      by_cases instantiable : Instantiable setting heap narrative simulationModel
      · obtain ⟨network, t', run'⟩ := matched.exists_returns draws hashed found (fun l member uID =>
          by
            obtain ⟨before, c, after, split, taken⟩ :=
              (mem_flatten_notProcessedEach_iff found).mp member
            exact instantiable.accepted _ (matched.eq_matching.mpr rfl) before c after split l taken
              uID) instantiable.named
        rw [run] at run'
        cases run'
      · obtain ⟨network', t', -, -, run'⟩ := matched.run_apply_of_links draws hashed found
        rw [run, EStateM.run_bind] at run'
        by_cases accepted : ∀ u ∈ urisOfText t' network'.toConceptNetwork,
            (t'.uri u).Accepted setting.platform
        · obtain ⟨texts, t'', asked, -⟩ := run_uriTexts_of_accepted accepted
          rw [asked] at run'
          cases run'
        · obtain ⟨input, t'', refused⟩ := run_uriTexts_of_refused accepted
          rw [refused] at run'
          cases run'
          exact Or.inr ⟨⟨input, rfl⟩, instantiable⟩
    · obtain ⟨t', run'⟩ := matched.run_apply_of_no_links draws hashed linked
      rw [run] at run'
      cases run'
      exact Or.inl rfl
  · rw [run_apply_of_not_hashed matched.resolved hashed] at run
    cases run
    exact Or.inl rfl

end Matched

/-! ### Every narrative -/

section Every

variable (wf : heap.WellFormed) (holds : heap.HasNetwork simulationModel)
  (exist : ∀ p ∈ phrasesOf narrative, ∀ c ∈ (heap.phrase p).concepts, c < heap.concepts.size)

include wf holds exist

/-- Where every phrase is known and one has exactly one match, the simulation comes to the creation
of instances, if the phrases with a match carry concepts. -/
theorem matched_of_carried
    (resolved : ∀ p ∈ ambiguous setting.textCase heap narrative simulationModel,
      (heap.phrase p).concepts ≠ [])
    (headed : ∀ p ∈ exactMatch setting.textCase heap narrative simulationModel,
      (heap.phrase p).concepts ≠ [])
    (allKnown : notKnown setting.textCase heap narrative simulationModel = [])
    (known : exactMatch setting.textCase heap narrative simulationModel ≠ []) :
    Matched setting.textCase heap narrative simulationModel where
  wellFormed := wf
  model := holds
  exist p member := exist p (mem_hasMatches_iff.mp member).1
  carried p member := (mem_hasMatches_iff_or.mp member).elim (headed p) (resolved p)
  allKnown := allKnown
  known := known

omit wf holds exist in
/-- A simulation that returns has taken concepts of phrases that carry some only, and has made the
map of the ambiguous phrases. -/
theorem carried_of_returns {result : Option SimulatedNetwork}
    (run : (apply setting draws stack narrative simulationModel).run heap = .ok result t) :
    (∀ p ∈ ambiguous setting.textCase heap narrative simulationModel,
        (heap.phrase p).concepts ≠ []) ∧
      Hashed setting heap narrative simulationModel stack ∧
        (notKnown setting.textCase heap narrative simulationModel = [] →
          ∀ p ∈ exactMatch setting.textCase heap narrative simulationModel,
            (heap.phrase p).concepts ≠ []) := by
  have resolved : ∀ p ∈ ambiguous setting.textCase heap narrative simulationModel,
      (heap.phrase p).concepts ≠ [] := by
    intro p member none
    rw [run_apply_of_unresolved ⟨p, member, none⟩] at run
    cases run
  have hashed : Hashed setting heap narrative simulationModel stack := by
    by_contra overflows
    rw [run_apply_of_not_hashed resolved overflows] at run
    cases run
  refine ⟨resolved, hashed, fun allKnown p member none => ?_⟩
  rw [run_apply_of_headless resolved hashed allKnown ⟨p, member, none⟩] at run
  cases run

/-- A simulation is total exactly when it takes the concepts of phrases that carry some only, its
recursions end, and the texts of URIs are accepted. -/
theorem total_iff : Total setting heap narrative simulationModel ↔
    Answerable setting heap narrative simulationModel := by
  constructor
  · intro total
    obtain ⟨stack, result, t, run⟩ := total.returns fun _ => ⟨0, by decide⟩
    obtain ⟨resolved, hashed, headed⟩ := carried_of_returns run
    refine ⟨resolved, exists_hashed_iff.mp ⟨stack, hashed⟩, fun allKnown known => ?_⟩
    have matched := matched_of_carried wf holds exist resolved (headed allKnown) allKnown known
    exact ⟨headed allKnown, matched.instantiable_of_returns total.returns⟩
  · intro answerable
    obtain ⟨stack, hashed⟩ := exists_hashed_iff.mpr answerable.hashed
    have failing : ∀ draws stack e t, ¬ Hashed setting heap narrative simulationModel stack →
        (apply setting draws stack narrative simulationModel).run heap = .error e t →
          e = .graph .stackOverflow := by
      intro draws stack e t overflows run
      rw [run_apply_of_not_hashed answerable.resolved overflows] at run
      cases run
      rfl
    -- the three ends of a simulation whose map is made
    by_cases allKnown : notKnown setting.textCase heap narrative simulationModel = []
    · by_cases known : exactMatch setting.textCase heap narrative simulationModel = []
      · refine ⟨fun draws => ⟨stack, none, heap,
          run_apply_of_no_exactMatch answerable.resolved hashed allKnown known⟩, ?_⟩
        intro draws stack e t run
        refine failing draws stack e t (fun hashed => ?_) run
        rw [run_apply_of_no_exactMatch answerable.resolved hashed allKnown known] at run
        cases run
      · obtain ⟨headed, instantiable⟩ := answerable.simulated allKnown known
        have matched :=
          matched_of_carried wf holds exist answerable.resolved headed allKnown known
        refine ⟨fun draws => ?_, fun draws stack e t run => ?_⟩
        · obtain ⟨stack, network, t, run⟩ :=
            matched.exists_stack_returns draws ⟨stack, hashed⟩ instantiable
          exact ⟨stack, some network, t, run⟩
        · exact (matched.of_error run).resolve_right fun refused => refused.2 instantiable
    · refine ⟨fun draws => ?_, fun draws stack e t run => ?_⟩
      · obtain ⟨network, t, run, -⟩ :=
          run_apply_of_notKnown draws answerable.resolved hashed allKnown
        exact ⟨stack, some network, t, run⟩
      · refine failing draws stack e t (fun hashed => ?_) run
        obtain ⟨network, t', run', -⟩ :=
          run_apply_of_notKnown draws answerable.resolved hashed allKnown
        rw [run'] at run
        cases run

end Every

/-! ### A user and a person -/

section Example

/-- A person and a user who is one. -/
def userAndPerson : Heap :=
  (({} : Heap).constructed {} { value := "person", name := "person" } { name := "person" }).withChild
    0 1 { value := "user", name := "user" } { name := "user" }

/-- The word for the user, and words that mean the person or the user. -/
def wordsFor (ambiguities : ℕ) : Heap :=
  { userAndPerson with
    phrases := .ofList ({ concepts := [1], text := "user" } ::
      List.replicate ambiguities { concepts := [0, 1], text := "someone" }) }

/-- The narrative of these words. -/
def narrativeOf (ambiguities : ℕ) : AnnotatedNarrative where
  sentences := [{ phrases := List.range (ambiguities + 1), uri := 0 }]
  uri := 0

/-- The user only. -/
def userModel : ConceptNetwork := { nodes := [1] }

section Phrases

variable (phrases : Arena AnnotatedPhrase)

/-- The phrases don't matter to a well-formed heap. -/
theorem wellFormed_withPhrases : Heap.WellFormed { userAndPerson with phrases } := by
  have wf : userAndPerson.WellFormed :=
    (Heap.wellFormed_empty.constructed (List.forall_mem_nil _) _ _).withChild Nat.zero_lt_one _ _ _
  exact ⟨wf.lines, wf.apart, wf.generalisations_lt, wf.specialisations_lt, wf.ends, wf.linked,
    wf.uris, wf.linkUris⟩

theorem conceptLinks_withPhrases (c : ConceptRef) :
    (Heap.concept { userAndPerson with phrases } c).conceptLinks = [] := by
  rw [List.eq_nil_iff_forall_not_mem]
  intro l member
  exact absurd ((wellFormed_withPhrases phrases).linked c l member) (Nat.not_lt_zero _)

/-- Only the person is above the user, and nothing above the person. -/
theorem endsAbove_user : Heap.EndsAbove { userAndPerson with phrases } 1 := by
  have person : userAndPerson.generalisationsList 0 = [] := by decide +kernel
  have user : userAndPerson.generalisationsList 1 = [0] := by decide +kernel
  constructor
  intro g above
  have above' : g ∈ userAndPerson.generalisationsList 1 := above
  rw [user, List.mem_singleton] at above'
  subst above'
  constructor
  intro g' higher
  have higher' : g' ∈ userAndPerson.generalisationsList 0 := higher
  rw [person] at higher'
  cases higher'

/-- The search for links from the user ends. -/
theorem searchEnds_user {name : String} {m : ConceptRef} {concepts : List ConceptRef}
    (found : (Heap.getNodeByName { userAndPerson with phrases } userModel name).head? = some m) :
    Heap.EndsAbove { userAndPerson with phrases } m ∧
      ∀ g, Heap.Ancestor { userAndPerson with phrases } m g →
        (Heap.concept { userAndPerson with phrases } g).conceptLinks ≠ [] →
          ∀ d ∈ concepts, Heap.EndsAbove { userAndPerson with phrases } d := by
  have inside : m ∈ [1] := List.mem_of_mem_filter (List.mem_of_mem_head? found)
  obtain rfl := List.mem_singleton.mp inside
  exact ⟨endsAbove_user phrases, fun g _ linked =>
    absurd (conceptLinks_withPhrases phrases g) linked⟩

theorem instantiable_user (narrative : AnnotatedNarrative) :
    Instantiable plainSetting { userAndPerson with phrases } narrative userModel :=
  ⟨fun _ _ _ _ _ found => searchEnds_user phrases found, fun _ _ _ _ _ _ _ _ _ => rfl, rfl⟩

end Phrases

/-- The narrative with two ambiguous words is simulated. -/
theorem twoAmbiguities_total : Total plainSetting (wordsFor 2) (narrativeOf 2) userModel :=
  (total_iff (wellFormed_withPhrases _) ⟨by decide +kernel, by decide +kernel⟩
    (by decide +kernel)).mpr ⟨by decide +kernel, Or.inl (by decide +kernel),
      fun _ _ => ⟨by decide +kernel, instantiable_user _ _⟩⟩

/-- A word for the user that has not been annotated. -/
def plainWord : Heap := { userAndPerson with phrases := .ofList [{ text := "User" }] }

/-- The narrative of a single word. -/
def oneWord : AnnotatedNarrative := { sentences := [{ phrases := [0], uri := 0 }], uri := 0 }

/-- The word has the user of the model as its only match, and no concept of its own. -/
theorem plainWord_not_total : plainWord.WellFormed ∧ plainWord.HasNetwork userModel ∧
    ¬ Total plainSetting plainWord oneWord userModel := by
  refine ⟨wellFormed_withPhrases _, ⟨by decide +kernel, by decide +kernel⟩, fun total => ?_⟩
  obtain ⟨stack, result, t, run⟩ := total.returns fun _ => ⟨0, by decide⟩
  have hashed : Hashed plainSetting plainWord oneWord userModel stack :=
    hashed_iff.mpr (Or.inl (by decide +kernel))
  rw [run_apply_of_headless (by decide +kernel) hashed (by decide +kernel)
    ⟨0, by decide +kernel, by decide +kernel⟩] at run
  cases run

end Example

end Simulation

end ThinkingUnderstanding
