import ThinkingUnderstanding.Simulation.InstanceNetwork
import ThinkingUnderstanding.Simulation.Matches

/-!
# How a simulation ends

When the ambiguous phrases have been resolved, a simulation creates the instances, unless the
search for links overflows the stack, and asks for the texts of their URIs, of which the platform
may refuse one. It ends in no other way.

## Main definitions

* `Simulation.Result` — a network of instances
* `Simulation.Matched` — the creation of instances is come to
* `Simulation.Hashed`, `Simulation.Linked` — the recursions before it return

## Main results

* `run_uriTexts_of_accepted`, `run_uriTexts_of_refused` — the texts of URIs
* `exists_hashed_iff`, `exists_stack_linked_iff` — the stacks on which the recursions return
* `Matched.run_apply_of_links`, `Matched.run_apply_of_no_links` — the simulation after them
-/

namespace ThinkingUnderstanding

open Math Semantics

namespace Simulation

/-! ### The texts of URIs -/

section Texts

variable {platform : Platform} {t : Heap} {u : UriRef} {us : List UriRef}

theorem run_uriToString (platform : Platform) (u : UriRef) (heap : Heap) :
    (uriToString platform u).run heap =
      match (uriText platform u).run { heap, kb := .onlyRoot, id2object := fun _ => none } with
      | .ok text world => .ok text world.heap
      | .error _ world => .error (.uriSyntaxException (heap.uri u).format) world.heap := rfl

theorem run_uriToString_of_accepted (accepted : (t.uri u).Accepted platform) :
    ∃ t', (uriToString platform u).run t = .ok (t.uri u).text t' ∧ t.SameGraph t' ∧
      (t'.uri u).cached ≠ none ∧ ∀ u' ≠ u, t'.uri u' = t.uri u' := by
  obtain ⟨world, run, asked⟩ := run_uriText_of_accepted
    (s := { heap := t, kb := .onlyRoot, id2object := fun _ => none }) accepted
  refine ⟨world.heap, ?_, asked.graph, ?_, asked.others⟩
  · rw [run_uriToString, run]
  · rw [asked.kept]
    exact Option.some_ne_none _

theorem run_uriToString_of_refused (refused : ¬ (t.uri u).Accepted platform) :
    (uriToString platform u).run t = .error (.uriSyntaxException (t.uri u).format) t := by
  obtain ⟨e, run⟩ := run_uriText_of_not_accepted
    (s := { heap := t, kb := .onlyRoot, id2object := fun _ => none }) refused
  rw [run_uriToString, run]

/-- A URI whose text has been made is accepted, and the others are as before. -/
theorem accepted_iff_of_asked {t' : Heap} (accepted : (t.uri u).Accepted platform)
    (kept : (t'.uri u).cached ≠ none) (others : ∀ u' ≠ u, t'.uri u' = t.uri u') (u' : UriRef) :
    (t'.uri u').Accepted platform ↔ (t.uri u').Accepted platform := by
  by_cases same : u' = u
  · subst same
    exact iff_of_true (fun none => absurd none kept) accepted
  · rw [others u' same]

/-- The texts of accepted URIs are made, and nothing else changes. -/
theorem run_uriTexts_of_accepted (accepted : ∀ u ∈ us, (t.uri u).Accepted platform) :
    ∃ texts t', (us.mapM (uriToString platform)).run t = .ok texts t' ∧ t.SameGraph t' := by
  induction us generalizing t with
  | nil => exact ⟨[], t, rfl, .refl t⟩
  | cons u rest ih =>
    rw [List.forall_mem_cons] at accepted
    obtain ⟨t', run, same, kept, others⟩ := run_uriToString_of_accepted accepted.1
    obtain ⟨texts, t'', run', same'⟩ := ih fun u' member =>
      (accepted_iff_of_asked accepted.1 kept others u').mpr (accepted.2 u' member)
    refine ⟨(t.uri u).text :: texts, t'', ?_, same.trans same'⟩
    rw [List.mapM_cons]
    exact run_bind_eq_ok_iff.mpr ⟨_, t', run, run_bind_eq_ok_iff.mpr ⟨texts, t'', run', rfl⟩⟩

/-- A URI that is refused is the end. -/
theorem run_uriTexts_of_refused (refused : ¬ ∀ u ∈ us, (t.uri u).Accepted platform) :
    ∃ input t', (us.mapM (uriToString platform)).run t = .error (.uriSyntaxException input) t' := by
  induction us generalizing t with
  | nil => exact absurd (List.forall_mem_nil _) refused
  | cons u rest ih =>
    rw [List.forall_mem_cons, not_and] at refused
    rw [List.mapM_cons, EStateM.run_bind]
    by_cases accepted : (t.uri u).Accepted platform
    · obtain ⟨t', run, -, kept, others⟩ := run_uriToString_of_accepted accepted
      obtain ⟨input, t'', run'⟩ := ih fun all => refused accepted fun u' member =>
        (accepted_iff_of_asked accepted kept others u').mp (all u' member)
      refine ⟨input, t'', ?_⟩
      rw [run]
      dsimp only
      rw [EStateM.run_bind, run']
    · rw [run_uriToString_of_refused accepted]
      exact ⟨_, t, rfl⟩

end Texts

variable {heap : Heap} {narrative : AnnotatedNarrative} {simulationModel : ConceptNetwork}
  {textCase : TextCase} {depth : ℕ} {concepts processed rest : List ConceptRef} {l : LinkRef}

/-! ### The network of instances -/

/-- A network of new instances of concepts, in their order, and of instances of links. -/
structure Result (draws : Draws) (heap t : Heap) (concepts : List ConceptRef)
    (links : List LinkRef) (network : SimulatedNetwork) : Prop where
  nodes : List.Forall₂ (InstanceOf heap t) concepts network.nodes
  newer : network.nodes.Pairwise (· < ·)
  links : List.Forall₂ (LinkInstanceOf draws heap t) links network.links
  uri : t.uri network.uri = { name := "Simulation" }

variable {draws : Draws} {setting : SimulationSetting} {stack : ℕ} {t : Heap}
  {network : SimulatedNetwork} {links : List LinkRef}

/-- The network of instances that a simulation makes is a result. -/
theorem NetworkOf.result {links : List (List LinkRef)}
    (made : NetworkOf draws heap t concepts links "Simulation" network) :
    Result draws heap t concepts links.flatten network where
  nodes := made.nodes
  newer := made.newer
  links := made.linkInstances.imp fun _ _ instances => instances.1
  uri := made.uri

/-- The texts that are asked for are those of the new links and of the network. -/
theorem accepted_urisOfText_iff {platform : Platform}
    (result : Result draws heap t concepts links network) :
    (∀ u ∈ urisOfText t network.toConceptNetwork, (t.uri u).Accepted platform) ↔
      (∀ it ∈ network.links, platform.acceptsURI (t.uri (t.link it).uri).format) ∧
        platform.acceptsURI ({ name := "Simulation" } : KnowledgeURI).format := by
  have phraseless : network.nodes.flatMap (fun c => (t.phrasesOf c).keys) = [] := by
    rw [List.flatMap_eq_nil_iff]
    intro it member
    obtain ⟨_, -, instance'⟩ := exists_of_mem_right result.nodes member
    obtain ⟨line, -, has, none⟩ := instance'.phrases
    rw [Heap.phrasesOf, has, Option.elim_some, none]
    rfl
  have fresh : ∀ it ∈ network.links, (t.uri (t.link it).uri).cached = none := by
    intro it member
    obtain ⟨_, -, linked⟩ := exists_of_mem_right result.links member
    obtain ⟨k, uri⟩ := linked.uri
    rw [uri]
  rw [urisOfText, phraseless, List.nil_append, List.forall_mem_append, List.forall_mem_map,
    List.forall_mem_singleton, result.uri]
  refine and_congr (forall₂_congr fun it member => ?_) ?_
  · exact ⟨fun accepted => accepted (fresh it member), fun accepted _ => accepted⟩
  · exact ⟨fun accepted => accepted rfl, fun accepted _ => accepted⟩

/-! ### The simulation -/

/-- The simulation comes to the creation of instances, once the ambiguous phrases are keys of a
map: every phrase is known, one has exactly one match, and those with a match carry concepts. -/
structure Matched (textCase : TextCase) (heap : Heap) (narrative : AnnotatedNarrative)
    (simulationModel : ConceptNetwork) : Prop where
  wellFormed : heap.WellFormed
  model : heap.HasNetwork simulationModel
  exist : ∀ p ∈ hasMatches textCase heap narrative simulationModel,
    ∀ c ∈ (heap.phrase p).concepts, c < heap.concepts.size
  carried : MatchesCarried textCase heap narrative simulationModel
  allKnown : notKnown textCase heap narrative simulationModel = []
  known : exactMatch textCase heap narrative simulationModel ≠ []

/-- The map of the ambiguous phrases is made, on a stack of the given depth. -/
def Hashed (setting : SimulationSetting) (heap : Heap) (narrative : AnnotatedNarrative)
    (simulationModel : ConceptNetwork) (stack : ℕ) : Prop :=
  (toMap (hashPhrase setting stack heap)
    (mostReferencedConcepts setting.textCase heap narrative simulationModel)).isSome

theorem hashed_iff : Hashed setting heap narrative simulationModel stack ↔
    (ambiguous setting.textCase heap narrative simulationModel).toFinset.card ≤ 4 ∨
      ∀ p ∈ ambiguous setting.textCase heap narrative simulationModel,
        ¬ HasWalk (HashedObject.fields heap) stack (.phrase p) := by
  rw [Hashed, isSome_toMap_iff, map_fst_mostReferencedConcepts]
  exact or_congr_right (forall₂_congr fun p _ => isSome_hashCode_iff)

/-- A deeper stack does as well. -/
theorem Hashed.of_le (hashed : Hashed setting heap narrative simulationModel stack) {deeper : ℕ}
    (le : stack ≤ deeper) : Hashed setting heap narrative simulationModel deeper :=
  hashed_iff.mpr ((hashed_iff.mp hashed).imp_right fun all p member walk =>
    all p member (walk.of_le le))

/-- The map is made on some stack when there are few ambiguous phrases, or each has a hash
code. -/
theorem exists_hashed_iff : (∃ stack, Hashed setting heap narrative simulationModel stack) ↔
    (ambiguous setting.textCase heap narrative simulationModel).toFinset.card ≤ 4 ∨
      ∀ p ∈ ambiguous setting.textCase heap narrative simulationModel,
        HashTerminates setting.mix heap (.phrase p) := by
  simp only [hashed_iff, hashTerminates_iff_acc, exists_or, exists_const]
  refine or_congr_right ?_
  rw [← List.forall_mem_map (P := fun o => Acc (fun b a => b ∈ HashedObject.fields heap a) o),
    ← exists_forall_not_hasWalk_iff_acc]
  simp only [List.forall_mem_map]

/-- The links of the instances are found, on a stack of the given depth. -/
def Linked (setting : SimulationSetting) (heap : Heap) (narrative : AnnotatedNarrative)
    (simulationModel : ConceptNetwork) (stack : ℕ) (links : List (List LinkRef)) : Prop :=
  heap.notProcessedEach setting.textCase simulationModel stack
    (matching setting.textCase heap narrative simulationModel) []
      (matching setting.textCase heap narrative simulationModel) = some links

/-- The search for links returns, on a stack of the given depth, unless some chain of calls is as
long. -/
theorem exists_linked_iff : (∃ links, Linked setting heap narrative simulationModel stack links) ↔
    ∀ search ∈ (matching setting.textCase heap narrative simulationModel).filterMap fun c =>
      ((heap.getNodeByName simulationModel (heap.uriOf c).name).head?).map
        LinkSearch.generalisedLinks,
      ¬ HasWalk (LinkSearch.next heap (matching setting.textCase heap narrative simulationModel))
        stack search := by
  simp only [Linked, ← Option.isSome_iff_exists]
  rw [isSome_notProcessedEach_iff]
  simp only [Heap.isSome_getGeneralisedLinks_iff, List.mem_filterMap, Option.map_eq_some_iff,
    forall_exists_index, and_imp]
  constructor
  · rintro all _ c member m first rfl
    exact all c member m first
  · exact fun all c member m first => all _ c member m first rfl

/-- On some stack the links are found when the generalisations end above the concepts of the
model that are looked at, and, where one of those has links, above all concepts. -/
theorem exists_stack_linked_iff :
    (∃ stack links, Linked setting heap narrative simulationModel stack links) ↔
      ∀ c ∈ matching setting.textCase heap narrative simulationModel, ∀ m,
        (heap.getNodeByName simulationModel (heap.uriOf c).name).head? = some m →
          heap.EndsAbove m ∧ ∀ g, heap.Ancestor m g → (heap.concept g).conceptLinks ≠ [] →
            ∀ d ∈ matching setting.textCase heap narrative simulationModel, heap.EndsAbove d := by
  simp only [exists_linked_iff]
  rw [exists_forall_not_hasWalk_iff_acc]
  simp only [List.mem_filterMap, Option.map_eq_some_iff, forall_exists_index, and_imp]
  constructor
  · exact fun all c member m first =>
      Heap.acc_generalisedLinks_iff.mp (all _ c member m first rfl)
  · rintro all _ c member m first rfl
    exact Heap.acc_generalisedLinks_iff.mpr (all c member m first)

theorem Linked.of_le (linked : ∃ links, Linked setting heap narrative simulationModel stack links)
    {deeper : ℕ} (le : stack ≤ deeper) :
    ∃ links, Linked setting heap narrative simulationModel deeper links :=
  exists_linked_iff.mpr fun search member walk =>
    exists_linked_iff.mp linked search member (walk.of_le le)

namespace Matched

variable (matched : Matched setting.textCase heap narrative simulationModel)

include matched

theorem resolved : ∀ p ∈ ambiguous setting.textCase heap narrative simulationModel,
    (heap.phrase p).concepts ≠ [] := fun p several =>
  matched.carried p (mem_hasMatches_iff_or.mpr (Or.inr several))

theorem matching_lt : ∀ c ∈ matching setting.textCase heap narrative simulationModel,
    c < heap.concepts.size := by
  intro c member
  obtain ⟨p, inside, rfl⟩ := List.mem_map.mp member
  exact matched.exist p inside _ (standsFor_standFor narrative (matched.carried p inside)).mem

variable (draws) (hashed : Hashed setting heap narrative simulationModel stack)

include hashed

/-- When the links are found, the network is made, and its text is asked for. -/
theorem run_apply_of_links {links : List (List LinkRef)}
    (found : Linked setting heap narrative simulationModel stack links) :
    ∃ network t, Result draws heap t (matching setting.textCase heap narrative simulationModel)
        links.flatten network ∧
      network.notKnownPhrases = [] ∧
      (apply setting draws stack narrative simulationModel).run heap =
        ((urisOfText t network.toConceptNetwork).mapM (uriToString setting.platform) >>= fun _ =>
          pure (some network)).run t := by
  obtain ⟨network, t, run, made⟩ := run_instantiateConcepts draws matched.wellFormed matched.model
    matched.matching_lt "Simulation" found
  refine ⟨network, t, made.result, made.known, ?_⟩
  rw [run_apply_of_hashed matched.carried matched.allKnown matched.known hashed,
    EStateM.run_bind, run]
  rfl

theorem run_apply_of_no_links
    (overflows : ¬ ∃ links, Linked setting heap narrative simulationModel stack links) :
    ∃ t, (apply setting draws stack narrative simulationModel).run heap =
      .error (.graph .stackOverflow) t := by
  simp only [Linked, ← Option.isSome_iff_exists, Option.not_isSome_iff_eq_none] at overflows
  obtain ⟨t, run⟩ := run_instantiateConcepts_of_none draws matched.wellFormed matched.model
    matched.matching_lt "Simulation" overflows
  refine ⟨t, ?_⟩
  rw [run_apply_of_hashed matched.carried matched.allKnown matched.known hashed,
    EStateM.run_bind, run]

end Matched

end Simulation

end ThinkingUnderstanding
