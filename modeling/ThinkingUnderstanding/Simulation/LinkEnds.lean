import ThinkingUnderstanding.Simulation.InstanceNetwork

/-!
# The ends of the instances of links

Instances of links should connect the instances of concepts. But the other end of a link gets a
new instance each time, which is no node of the network, even when the network has an instance of
it. So no instance of a link connects two nodes.

An instance of an inherited link should have the direction of the link. The concept is only
compared with the source itself, so a link that leads from an ancestor of the concept is turned
round.

## Main definitions

* `Simulation.ConnectsNodes` — links between concepts of the list connect their instances
* `Heap.IsInherited` — the links that come from the model
* `Simulation.KeepsDirection` — the instances of inherited links have their direction

## Main results

* `connectsNodes_iff`, `keepsDirection_iff` — when a network is as it should be
-/

namespace ThinkingUnderstanding

open Math Semantics

/-- The link comes from the first concept of the model with the name of the concept, or from a
generalisation of that one. -/
def Heap.IsInherited (heap : Heap) (simulationModel : ConceptNetwork) (concepts : List ConceptRef)
    (concept : ConceptRef) (l : LinkRef) : Prop :=
  ∃ m, (heap.getNodeByName simulationModel (heap.uriOf concept).name).head? = some m ∧
    (l ∈ (heap.concept m).conceptLinks ∨ heap.IsGeneralisedLink concepts m l)

namespace Simulation

/-- The ends of the instances of links both of whose ends are concepts of the list are the nodes
that are instances of these. -/
def ConnectsNodes (heap t : Heap) (concepts : List ConceptRef) (network : SimulatedNetwork) :
    Prop :=
  ∀ l' ∈ network.links, ∀ l, (t.linesOfLink l').generalisations.values = [l] →
    (heap.link l).source ∈ concepts → (heap.link l).destination ∈ concepts →
      ((t.link l').source ∈ network.nodes ∧
          InstanceOf heap t (heap.link l).source (t.link l').source) ∧
        (t.link l').destination ∈ network.nodes ∧
          InstanceOf heap t (heap.link l).destination (t.link l').destination

/-- The instance of the concept is at the end of the instance of the link at which the link has
the concept or an ancestor of it, and at the other end is an instance of the other end. -/
def Directed (heap t : Heap) (concept it : ConceptRef) (l l' : LinkRef) : Prop :=
  heap.Ancestor concept (heap.link l).source ∧ (t.link l').source = it ∧
      InstanceOf heap t (heap.link l).destination (t.link l').destination ∨
    heap.Ancestor concept (heap.link l).destination ∧ (t.link l').destination = it ∧
      InstanceOf heap t (heap.link l).source (t.link l').source

/-- The instances of inherited links among the links of each node have their direction. -/
def KeepsDirection (heap t : Heap) (simulationModel : ConceptNetwork) (concepts : List ConceptRef)
    (network : SimulatedNetwork) : Prop :=
  ∀ e ∈ concepts.zip network.nodes, ∀ l' ∈ (t.concept e.2).conceptLinks, ∀ l,
    (t.linesOfLink l').generalisations.values = [l] →
      heap.IsInherited simulationModel concepts e.1 l → Directed heap t e.1 e.2 l l'

variable {heap t : Heap} {draws : Draws} {setting : SimulationSetting} {stack : ℕ}
  {simulationModel : ConceptNetwork} {concepts : List ConceptRef} {name : String}
  {network : SimulatedNetwork} {concept it : ConceptRef} {l l' : LinkRef}

/-- An instance of a link is directed as the link when the concept is its source, or the
destination is the concept or an ancestor. -/
theorem LinkBetween.directed_iff (made : LinkBetween draws heap t concept it l l') :
    Directed heap t concept it l l' ↔
      (heap.link l).source = concept ∨ heap.Ancestor concept (heap.link l).destination := by
  have ends := made.ends
  split_ifs at ends with same
  · refine iff_of_true (Or.inl ⟨?_, ends.1, ends.2.1⟩) (Or.inl same)
    rw [same]
    exact Relation.ReflTransGen.refl
  · rw [or_iff_right same]
    constructor
    · rintro (⟨-, here, -⟩ | ⟨up, -⟩)
      -- the source is newer than the instance of the concept
      · exact absurd here ends.2.2.ne'
      · exact up
    · exact fun up => Or.inr ⟨up, ends.1, ends.2.1⟩

/-- Every inherited link has an instance among the links of the instance of the concept. -/
theorem NetworkOf.exists_inherited {links : List (List LinkRef)}
    (made : NetworkOf draws heap t concepts links name network)
    (found : heap.notProcessedEach setting.textCase simulationModel stack concepts [] concepts =
      some links) (member : concept ∈ concepts)
    (inherited : heap.IsInherited simulationModel concepts concept l) :
    ∃ it, (concept, it) ∈ concepts.zip network.nodes ∧ ∃ l' ∈ (t.concept it).conceptLinks,
      LinkBetween draws heap t concept it l l' := by
  obtain ⟨it, zipped, ls, among, isMade⟩ := exists_zip_of_mem_left made.each member
  obtain ⟨before, taken⟩ := (List.forall₂_iff_zip.mp (forall₂_notProcessedEach found)).2 among
  exact ⟨it, zipped, exists_of_mem_left isMade.links ((taken l).mpr (Or.inr inherited))⟩

section Run

variable (wf : heap.WellFormed) (holds : heap.HasNetwork simulationModel)
  (inside : ∀ c ∈ concepts, c < heap.concepts.size)
  (run : (instantiateConcepts draws setting stack simulationModel concepts name).run heap =
    .ok network t)

include wf holds inside run

/-- The nodes are connected as the concepts are exactly when no link between concepts of the list
gets an instance. -/
theorem connectsNodes_iff : ConnectsNodes heap t concepts network ↔
    ∀ before c after, concepts = before ++ c :: after → ∀ l,
      heap.IsTakenOver setting.textCase simulationModel concepts before c l →
        ¬ ((heap.link l).source ∈ concepts ∧ (heap.link l).destination ∈ concepts) := by
  obtain ⟨links, found, made⟩ := networkOf_of_run draws wf holds inside name run
  constructor
  · rintro connects before c after split l taken ⟨source, destination⟩
    have member : l ∈ links.flatten :=
      (mem_flatten_notProcessedEach_iff found).mpr ⟨before, c, after, split, taken⟩
    obtain ⟨l', inside', -, parent⟩ := exists_of_mem_left made.linkInstances member
    obtain ⟨⟨node, -⟩, node', -⟩ := connects l' inside' l parent source destination
    obtain ⟨e, isEnd, outside⟩ := made.outside l' inside'
    rcases isEnd with rfl | rfl
    · exact outside node
    · exact outside node'
  · intro apart l' member l parent source destination
    obtain ⟨l₀, inside', -, parent'⟩ := exists_of_mem_right made.linkInstances member
    obtain rfl : l = l₀ := (List.cons.inj (parent.symm.trans parent')).1
    obtain ⟨before, c, after, split, taken⟩ := (mem_flatten_notProcessedEach_iff found).mp inside'
    exact absurd ⟨source, destination⟩ (apart before c after split l taken)

/-- Inherited links keep their direction exactly when each of them leads from the concept itself,
or to the concept or an ancestor. -/
theorem keepsDirection_iff : KeepsDirection heap t simulationModel concepts network ↔
    ∀ c ∈ concepts, ∀ l, heap.IsInherited simulationModel concepts c l →
      (heap.link l).source = c ∨ heap.Ancestor c (heap.link l).destination := by
  obtain ⟨links, found, made⟩ := networkOf_of_run draws wf holds inside name run
  constructor
  · intro keeps c member l inherited
    obtain ⟨it, zipped, l', linked, between⟩ := made.exists_inherited found member inherited
    exact between.directed_iff.mp
      (keeps (c, it) zipped l' linked l between.generalisations inherited)
  · rintro leads ⟨c, it⟩ zipped l' linked l parent inherited
    obtain ⟨ls, -, isMade⟩ := (List.forall₂_iff_zip.mp made.each).2 zipped
    obtain ⟨l₀, -, between⟩ := exists_of_mem_right isMade.links linked
    obtain rfl : l = l₀ := (List.cons.inj (parent.symm.trans between.generalisations)).1
    exact between.directed_iff.mpr (leads c (List.of_mem_zip zipped).1 l inherited)

end Run

/-! ### A user of a browser -/

section Example

/-- A person, a user who is one, a browser, and a link that says that a person uses the browser. -/
def userOfBrowser : Heap :=
  ((((({} : Heap).constructed {} { value := "person" } { name := "person" }).withChild 0 1
    { value := "user" } { name := "user" }).constructed {} { value := "browser" }
      { name := "browser" }).withLink 0 2 { name := "uses" } {}).withLinks 0 [0] |>.withLinks 2 [0]

theorem wellFormed_userOfBrowser : userOfBrowser.WellFormed := by
  have none : ∀ (heap : Heap), ∀ g ∈ (({} : TypedKLine ConceptRef)).values,
      g < heap.concepts.size := fun _ => List.forall_mem_nil _
  have user := (Heap.wellFormed_empty.constructed (none _) { value := "person" }
    { name := "person" }).withChild Nat.zero_lt_one 1 { value := "user" } { name := "user" }
  have browser := user.constructed (none _) { value := "browser" } { name := "browser" }
  have linked := browser.withLink (by decide +kernel : 0 < _ ∧ 2 < _) { name := "uses" } {}
  exact (linked.withLinks (by decide +kernel : 0 < _) (by decide +kernel)).withLinks
    (by decide +kernel : 2 < _) (by decide +kernel)

/-- The instances of concepts of a model with the given nodes and links. -/
def instantiated (concepts nodes : List ConceptRef) (links : List LinkRef) :
    EStateM.Result SimulationFailure Heap SimulatedNetwork :=
  (instantiateConcepts (fun _ => ⟨0, instanceIdRandomSeed_pos⟩) plainSetting 4 { nodes, links } concepts
    "Simulation").run userOfBrowser

theorem run_instantiated {concepts nodes : List ConceptRef} {links : List LinkRef}
    {taken : List (List LinkRef)}
    (inside : ((∀ n ∈ nodes, n < userOfBrowser.concepts.size) ∧
      ∀ l ∈ links, l < userOfBrowser.links.size) ∧ ∀ c ∈ concepts, c < userOfBrowser.concepts.size)
    (found : userOfBrowser.notProcessedEach plainSetting.textCase { nodes, links } 4 concepts []
      concepts = some taken) :
    ∃ network t, instantiated concepts nodes links = .ok network t ∧
      NetworkOf (fun _ => ⟨0, by decide⟩) userOfBrowser t concepts taken "Simulation" network :=
  run_instantiateConcepts _ wellFormed_userOfBrowser ⟨inside.1.1, inside.1.2⟩ inside.2 "Simulation"
    found

/-- The person alone gets an instance of the link to an instance of the browser. -/
theorem person_connected : ∃ network t, instantiated [0] [0, 2] [0] = .ok network t ∧
    ConnectsNodes userOfBrowser t [0] network := by
  have found : userOfBrowser.notProcessedEach plainSetting.textCase
      { nodes := [0, 2], links := [0] } 4 [0] [] [0] = some [[0]] := by decide +kernel
  obtain ⟨network, t, run, -⟩ := run_instantiated (by decide +kernel) found
  refine ⟨network, t, run, (connectsNodes_iff wellFormed_userOfBrowser
    ⟨by decide +kernel, by decide +kernel⟩ (by decide +kernel) run).mpr
      fun before c after split l taken => ?_⟩
  have only : l ∈ [[0]].flatten :=
    (mem_flatten_notProcessedEach_iff found).mpr ⟨before, c, after, split, taken⟩
  obtain rfl : l = 0 := List.mem_singleton.mp only
  decide +kernel

/-- The instance of the link between the person and the browser does not lead to the node that is
an instance of the browser. -/
theorem personAndBrowser_not_connected : ∃ network t,
    instantiated [0, 2] [0, 2] [0] = .ok network t ∧
      ¬ ConnectsNodes userOfBrowser t [0, 2] network := by
  have found : userOfBrowser.notProcessedEach plainSetting.textCase
      { nodes := [0, 2], links := [0] } 4 [0, 2] [] [0, 2] = some [[0], [0, 0]] := by decide +kernel
  obtain ⟨network, t, run, made⟩ := run_instantiated (by decide +kernel) found
  refine ⟨network, t, run, fun connects => ?_⟩
  have member : 0 ∈ [[0], [0, 0]].flatten := by decide
  obtain ⟨l', inside, -, parent⟩ := exists_of_mem_left made.linkInstances member
  obtain ⟨⟨node, -⟩, node', -⟩ :=
    connects l' inside 0 parent (by decide +kernel) (by decide +kernel)
  obtain ⟨e, isEnd, outside⟩ := made.outside l' inside
  rcases isEnd with rfl | rfl
  · exact outside node
  · exact outside node'

/-- The link to the browser leads to it. -/
theorem browser_directed : ∃ network t, instantiated [2] [1, 2] [] = .ok network t ∧
    KeepsDirection userOfBrowser t { nodes := [1, 2], links := [] } [2] network := by
  have found : userOfBrowser.notProcessedEach plainSetting.textCase
      { nodes := [1, 2], links := [] } 4 [2] [] [2] = some [[0]] := by decide +kernel
  obtain ⟨network, t, run, -⟩ := run_instantiated (by decide +kernel) found
  refine ⟨network, t, run, (keepsDirection_iff wellFormed_userOfBrowser
    ⟨by decide +kernel, by decide +kernel⟩ (by decide +kernel) run).mpr
      fun c member l inherited => ?_⟩
  obtain rfl := List.mem_singleton.mp member
  have only : l ∈ [[0]].flatten :=
    (mem_flatten_notProcessedEach_iff found).mpr ⟨[], 2, [], rfl, Or.inr inherited⟩
  obtain rfl : l = 0 := List.mem_singleton.mp only
  right
  have destination : (userOfBrowser.link 0).destination = 2 := by decide +kernel
  rw [destination]
  exact Relation.ReflTransGen.refl

/-- The user inherits the link of the person to the browser, and it gets turned round: the
instance of the user is its destination. -/
theorem user_not_directed : ∃ network t, instantiated [1, 2] [1, 2] [] = .ok network t ∧
    ¬ KeepsDirection userOfBrowser t { nodes := [1, 2], links := [] } [1, 2] network := by
  have found : userOfBrowser.notProcessedEach plainSetting.textCase
      { nodes := [1, 2], links := [] } 4 [1, 2] [] [1, 2] = some [[0], [0, 0]] := by decide +kernel
  obtain ⟨network, t, run, made⟩ := run_instantiated (by decide +kernel) found
  refine ⟨network, t, run, fun keeps => ?_⟩
  have inherited : userOfBrowser.IsInherited { nodes := [1, 2], links := [] } [1, 2] 1 0 := by
    -- the user is a person, and the browser is one of the concepts
    refine ⟨1, by decide +kernel, Or.inr ⟨0, .single (by decide +kernel), by decide +kernel, 2,
      by decide, 2, Relation.ReflTransGen.refl, by decide +kernel⟩⟩
  obtain ⟨it, zipped, l', linked, between⟩ := made.exists_inherited found (by decide) inherited
  rcases between.directed_iff.mp (keeps (1, it) zipped l' linked 0 between.generalisations
    inherited) with source | up
  · exact absurd source (by decide +kernel)
  · have destination : (userOfBrowser.link 0).destination = 2 := by decide +kernel
    have above : 2 ∈ [1, 0] := (destination ▸ up).mem_of_closed (by decide +kernel) (by decide)
    exact absurd above (by decide)

end Example

end Simulation

end ThinkingUnderstanding
