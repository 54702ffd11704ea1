import ThinkingUnderstanding.Simulation.Instantiation

/-!
# The network of instances

`instantiateConcepts` makes a network of the instances of concepts and of their links. It fails
only when a search for links overflows the stack. The links that get instances are known from the
heap it starts from: those that are taken over with one of the concepts.

## Main definitions

* `Simulation.NetworkOf` — the network with instances of concepts and of links

## Main results

* `isSome_notProcessedEach_iff`, `mem_flatten_notProcessedEach_iff` — when the search for links
  returns, and the links that are found
* `run_instantiateConcepts`, `run_instantiateConcepts_of_none` — how the creation ends
* `networkOf_of_run` — what a network that has been returned consists of
-/

namespace ThinkingUnderstanding

open Math Semantics

namespace Simulation

variable {heap t : Heap} {simulationModel : ConceptNetwork} {textCase : TextCase} {depth : ℕ}
  {concepts processed rest : List ConceptRef} {l l' : LinkRef}

/-! ### The search for links -/

/-- The search returns when it does for every first concept of the model with the name of one of
the concepts. -/
theorem isSome_notProcessedEach_iff :
    (heap.notProcessedEach textCase simulationModel depth concepts processed rest).isSome ↔
      ∀ c ∈ rest, ∀ m, (heap.getNodeByName simulationModel (heap.uriOf c).name).head? = some m →
        (heap.getGeneralisedLinks concepts depth m).isSome := by
  induction rest generalizing processed with
  | nil => exact iff_of_true rfl (List.forall_mem_nil _)
  | cons c rest ih =>
    have own : (heap.notProcessedLinks textCase simulationModel depth concepts processed c).isSome ↔
        _ := Heap.isSome_notProcessedLinks_iff
    have later : (heap.notProcessedEach textCase simulationModel depth concepts (processed ++ [c])
        rest).isSome ↔ _ := ih
    rw [List.forall_mem_cons, ← own, ← later, Heap.notProcessedEach]
    cases heap.notProcessedLinks textCase simulationModel depth concepts processed c with
    | none => exact iff_of_false Bool.false_ne_true fun both => Bool.false_ne_true both.1
    | some links =>
      cases heap.notProcessedEach textCase simulationModel depth concepts (processed ++ [c])
          rest with
      | none => exact iff_of_false Bool.false_ne_true fun both => Bool.false_ne_true both.2
      | some others => exact iff_of_true rfl ⟨rfl, rfl⟩

/-- A search for several concepts is one for the first, and one for the others with the first among
those processed before. -/
theorem exists_of_notProcessedEach_cons {c : ConceptRef} {links : List (List LinkRef)}
    (found : heap.notProcessedEach textCase simulationModel depth concepts processed (c :: rest) =
      some links) :
    ∃ own others,
      heap.notProcessedLinks textCase simulationModel depth concepts processed c = some own ∧
        heap.notProcessedEach textCase simulationModel depth concepts (processed ++ [c]) rest =
          some others ∧ links = own :: others := by
  obtain ⟨own, foundOwn, found⟩ := Option.bind_eq_some_iff.mp found
  obtain ⟨others, foundOthers, found⟩ := Option.bind_eq_some_iff.mp found
  exact ⟨own, others, foundOwn, foundOthers, (Option.some.inj found).symm⟩

/-- The links that are found are those taken over with one of the concepts. -/
theorem mem_flatten_notProcessedEach_iff {links : List (List LinkRef)}
    (found : heap.notProcessedEach textCase simulationModel depth concepts processed rest =
      some links) :
    l ∈ links.flatten ↔ ∃ before c after, rest = before ++ c :: after ∧
      heap.IsTakenOver textCase simulationModel concepts (processed ++ before) c l := by
  induction rest generalizing processed links with
  | nil =>
    cases found
    simp
  | cons c rest ih =>
    obtain ⟨own, others, foundOwn, foundOthers, rfl⟩ := exists_of_notProcessedEach_cons found
    rw [List.flatten_cons, List.mem_append, Heap.mem_notProcessedLinks_iff foundOwn, ih foundOthers]
    constructor
    · rintro (here | ⟨before, d, after, rfl, later⟩)
      · exact ⟨[], c, rest, rfl, by rwa [List.append_nil]⟩
      · exact ⟨c :: before, d, after, rfl, by rwa [List.append_cons]⟩
    · rintro ⟨before, d, after, split, taken⟩
      -- a link is taken over by the first concept, or by one of the later ones
      cases before with
      | nil =>
        obtain ⟨rfl, rfl⟩ := List.cons.inj split
        rw [List.append_nil] at taken
        exact Or.inl taken
      | cons first before =>
        obtain ⟨rfl, rfl⟩ := List.cons.inj split
        rw [List.append_cons] at taken
        exact Or.inr ⟨before, d, after, rfl, taken⟩

/-- The links that are found for a concept are those taken over with it, for some of the concepts
processed before. -/
theorem forall₂_notProcessedEach {links : List (List LinkRef)}
    (found : heap.notProcessedEach textCase simulationModel depth concepts processed rest =
      some links) :
    List.Forall₂ (fun c ls => ∃ before, ∀ l, l ∈ ls ↔
      heap.IsTakenOver textCase simulationModel concepts before c l) rest links := by
  induction rest generalizing processed links with
  | nil =>
    cases found
    exact .nil
  | cons c rest ih =>
    obtain ⟨own, others, foundOwn, foundOthers, rfl⟩ := exists_of_notProcessedEach_cons found
    exact .cons ⟨processed, fun l => Heap.mem_notProcessedLinks_iff foundOwn⟩ (ih foundOthers)

/-! ### The network -/

/-- A network of the given name with instances of concepts, one after the other, and of links,
each of which has an end that is no node. -/
structure NetworkOf (draws : Draws) (heap t : Heap) (concepts : List ConceptRef)
    (links : List (List LinkRef)) (name : String) (network : SimulatedNetwork) : Prop where
  wellFormed : t.WellFormed
  length : concepts.length = links.length
  made : ∃ made : List (ConceptRef × List LinkRef), network.nodes = made.map Prod.fst ∧
    network.links = (made.map Prod.snd).flatten ∧
      List.Forall₂ (fun c => Made draws heap t c.1 c.2) (concepts.zip links) made
  newer : network.nodes.Pairwise (· < ·)
  outside : ∀ l' ∈ network.links, ∃ e,
    ((t.link l').source = e ∨ (t.link l').destination = e) ∧ e ∉ network.nodes
  known : network.notKnownPhrases = []
  uri : t.uri network.uri = { name }

section Network

variable {draws : Draws} {links : List (List LinkRef)} {name : String}
  {network : SimulatedNetwork} (isMade : NetworkOf draws heap t concepts links name network)

include isMade

/-- Each node has instances of the links that have been found for its concept. -/
theorem NetworkOf.each : List.Forall₂ (fun c it => ∃ ls, (c, ls) ∈ concepts.zip links ∧
    Made draws heap t c ls (it, (t.concept it).conceptLinks)) concepts network.nodes := by
  obtain ⟨made, nodes, -, all⟩ := isMade.made
  have first : (concepts.zip links).map Prod.fst = concepts :=
    List.map_fst_zip isMade.length.le
  have both := (List.forall₂_and_left (concepts.zip links) made).mpr ⟨fun _ member => member, all⟩
  suffices related : List.Forall₂ (fun c it => ∃ ls, (c, ls) ∈ concepts.zip links ∧
      Made draws heap t c ls (it, (t.concept it).conceptLinks)) ((concepts.zip links).map Prod.fst)
        (made.map Prod.fst) by
    rwa [first, ← nodes] at related
  rw [List.forall₂_map_left_iff, List.forall₂_map_right_iff]
  refine both.imp fun c m there => ⟨c.2, there.1, ?_⟩
  rw [there.2.assigned]
  exact there.2

/-- The nodes are instances of the concepts, in their order. -/
theorem NetworkOf.nodes : List.Forall₂ (InstanceOf heap t) concepts network.nodes :=
  isMade.each.imp fun _ _ ⟨_, _, made⟩ => made.instanceOf

/-- The links are instances of the links that have been found, in their order. -/
theorem NetworkOf.linkInstances : List.Forall₂ (fun l l' => LinkInstanceOf draws heap t l l' ∧
      (t.linesOfLink l').generalisations.values = [l]) links.flatten network.links := by
  obtain ⟨made, -, eq, all⟩ := isMade.made
  have second : (concepts.zip links).map Prod.snd = links :=
    List.map_snd_zip isMade.length.ge
  rw [eq, ← second]
  apply List.rel_flatten
  rw [List.forall₂_map_left_iff, List.forall₂_map_right_iff]
  exact all.imp fun _ _ each => each.links.imp fun _ _ between =>
    ⟨between.toLinkInstanceOf, between.generalisations⟩

end Network

section Run

variable {setting : SimulationSetting} {stack : ℕ} (draws : Draws) (wf : heap.WellFormed)
  (holds : heap.HasNetwork simulationModel) (inside : ∀ c ∈ concepts, c < heap.concepts.size)
  (name : String)

include wf holds inside

theorem run_instantiateConcepts {links : List (List LinkRef)}
    (found : heap.notProcessedEach setting.textCase simulationModel stack concepts [] concepts =
      some links) :
    ∃ network t, (instantiateConcepts draws setting stack simulationModel concepts name).run heap =
      .ok network t ∧ NetworkOf draws heap t concepts links name network := by
  obtain ⟨made, t, run, wf', grown, all, newer, -, outside⟩ :=
    run_instantiateEach draws wf holds inside wf (.refl _ heap) inside found
  have extended := Heap.Extended.withURI t.concepts.size t { name }
  refine ⟨{ nodes := made.map Prod.fst, links := (made.map Prod.snd).flatten, uri := t.uris.size },
    { t with uris := t.uris.alloc { name } }, run_bind_eq_ok_iff.mpr ⟨made, t, run, rfl⟩, ?_⟩
  exact
    { wellFormed := wf'.withURI { name }
      length := length_notProcessedEach found
      made := ⟨made, rfl, rfl, all.imp fun _ _ each => each.grown wf' extended⟩
      newer
      outside := fun l' member => by
        obtain ⟨e, isEnd, -, apart⟩ := outside l' member
        exact ⟨e, isEnd, apart⟩
      known := rfl
      uri := t.uris.get_alloc_size _ }

theorem run_instantiateConcepts_of_none
    (overflows : heap.notProcessedEach setting.textCase simulationModel stack concepts [] concepts =
      none) :
    ∃ t, (instantiateConcepts draws setting stack simulationModel concepts name).run heap =
      .error (.graph .stackOverflow) t := by
  obtain ⟨t, run⟩ :=
    run_instantiateEach_of_none draws wf holds inside wf (.refl _ heap) inside overflows
  refine ⟨t, ?_⟩
  rw [instantiateConcepts, EStateM.run_bind, run]

/-- The links of a network that has been returned have been found. -/
theorem networkOf_of_run {network : SimulatedNetwork}
    (run : (instantiateConcepts draws setting stack simulationModel concepts name).run heap =
      .ok network t) :
    ∃ links, heap.notProcessedEach setting.textCase simulationModel stack concepts [] concepts =
      some links ∧ NetworkOf draws heap t concepts links name network := by
  cases found : heap.notProcessedEach setting.textCase simulationModel stack concepts []
      concepts with
  | none =>
    obtain ⟨t', run'⟩ := run_instantiateConcepts_of_none draws wf holds inside name found
    rw [run] at run'
    cases run'
  | some links =>
    obtain ⟨network', t', run', made⟩ := run_instantiateConcepts draws wf holds inside name found
    rw [run] at run'
    cases run'
    exact ⟨links, rfl, made⟩

end Run

/-- A platform that accepts every text, and hash codes that are all the same. -/
def plainSetting : SimulationSetting where
  textCase := .ascii
  platform := .plain
  mix _ _ := 0

end Simulation

end ThinkingUnderstanding
