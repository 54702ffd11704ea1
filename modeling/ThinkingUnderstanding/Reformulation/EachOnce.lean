import ThinkingUnderstanding.Math.Counting
import ThinkingUnderstanding.Reformulation.Reformulation

/-!
# Is a node reformulated twice?

Each node of a network should get at most one concept instantiated for it: itself when the model
has one of its name, and one of its generalisations otherwise. The nodes that are not known are
sought by containment, so a node that is another object than the one of the model with its name,
such as an instance of it, is used a second time for a generalisation.

## Main definitions

* `Reformulation.InstantiatedFor` — the node of a network that stands for a node of the input
* `Reformulation.UsesEachOnce` — no node of the input is used twice

## Main results

* `usesEachOnce_iff` — when no node is used twice
-/

namespace ThinkingUnderstanding

open Math Semantics

namespace Reformulation

open Simulation (InstanceOf)

/-- The node of a network is an instance of the node of the input if the model has its name, and
otherwise of a generalisation that is a node of the model. -/
def InstantiatedFor (heap t : Heap) (model : ConceptNetwork) (n it : ConceptRef) : Prop :=
  OccursByName heap model n ∧ InstanceOf heap t n it ∨
    ¬ OccursByName heap model n ∧
      ∃ g ∈ heap.generalisationsList n, g ∈ model.nodes ∧ InstanceOf heap t g it

/-- Each node of the network stands for a node of the input, none of which is used more often than
it occurs. Those whose names the model has are all used. -/
def UsesEachOnce (heap t : Heap) (toReformulate model : ConceptNetwork)
    (network : SimulatedNetwork) : Prop :=
  ∃ origins : List ConceptRef, origins.Subperm toReformulate.nodes ∧
    (∀ n ∈ toReformulate.nodes, OccursByName heap model n → n ∈ origins) ∧
      List.Forall₂ (InstantiatedFor heap t model) origins network.nodes

variable {heap t : Heap} {draws : Draws} {setting : SimulationSetting} {stack : ℕ}
  {toReformulate model : ConceptNetwork} {network : SimulatedNetwork} {n it : ConceptRef}

theorem InstantiatedFor.used (made : InstantiatedFor heap t model n it) :
    OccursByName heap model n ∨ IsGeneralised heap model n := by
  rcases made with ⟨known, -⟩ | ⟨unknown, g, general, inside, -⟩
  · exact Or.inl known
  · exact Or.inr ⟨fun member => unknown (.of_mem member), g, general, inside⟩

theorem map_fst_uses : (uses heap toReformulate model).map Prod.fst =
    toReformulate.nodes.filter (fun c => OccursByName heap model c) ++
      toReformulate.nodes.filter fun c => IsGeneralised heap model c := by
  simp [uses, filterConceptList_eq, foundGeneralisations, Function.comp_def]

/-- Where no node is used twice, the instances stand for the nodes that are used. -/
theorem instantiatedFor_of_mem_uses {u : ConceptRef × ConceptRef}
    (apart : ∀ n ∈ toReformulate.nodes, OccursByName heap model n → ¬ IsGeneralised heap model n)
    (member : u ∈ uses heap toReformulate model) (instance_ : InstanceOf heap t u.2 it) :
    InstantiatedFor heap t model u.1 it := by
  rcases List.mem_append.mp member with known | chosen
  · rw [filterConceptList_eq] at known
    obtain ⟨n, passes, rfl⟩ := List.mem_map.mp known
    exact Or.inl ⟨of_decide_eq_true (List.mem_filter.mp passes).2, instance_⟩
  · obtain ⟨n, found, rfl⟩ := List.mem_map.mp chosen
    obtain ⟨inside, passes⟩ := List.mem_filter.mp found
    have generalised := of_decide_eq_true passes
    obtain ⟨general, isNode⟩ := chosenGeneralisation_mem generalised
    exact Or.inr ⟨fun known => apart n inside known generalised, _, general, isNode, instance_⟩

/-- No node is used twice exactly when no node whose name the model has is itself missing from the
model, with a generalisation in it. -/
theorem usesEachOnce_iff (wf : heap.WellFormed) (holds : heap.HasNetwork model)
    (inside : ∀ c ∈ toReformulate.nodes, c < heap.concepts.size)
    (run : (apply draws setting stack toReformulate model).run heap = .ok (some network) t) :
    UsesEachOnce heap t toReformulate model network ↔
      ∀ n ∈ toReformulate.nodes, OccursByName heap model n → ¬ IsGeneralised heap model n := by
  obtain ⟨links, made⟩ := networkOf_of_run_apply wf holds inside run
  have nodes : List.Forall₂ (fun u it => InstanceOf heap t u.2 it)
      (uses heap toReformulate model) network.nodes := List.forall₂_map_left_iff.mp made.nodes
  constructor
  · rintro ⟨origins, among, -, stand⟩ n member known generalised
    -- there are as many origins as uses, but each node is an origin only once
    have used : ∀ o ∈ origins, OccursByName heap model o ∨ IsGeneralised heap model o := by
      intro o isOrigin
      obtain ⟨it, -, isMade⟩ := exists_of_mem_left stand isOrigin
      exact isMade.used
    have few : origins.length ≤ toReformulate.nodes.countP fun c =>
        OccursByName heap model c || IsGeneralised heap model c := by
      rw [List.countP_eq_length_filter]
      have all : origins.filter (fun c => OccursByName heap model c || IsGeneralised heap model c) =
          origins := List.filter_eq_self.mpr fun o isOrigin => by simpa using used o isOrigin
      rw [← all]
      exact (among.filter _).length_le
    have many : origins.length = toReformulate.nodes.countP (fun c => OccursByName heap model c) +
        toReformulate.nodes.countP fun c => IsGeneralised heap model c := by
      rw [stand.length_eq, ← nodes.length_eq, ← List.length_map Prod.fst, map_fst_uses,
        List.length_append, List.countP_eq_length_filter, List.countP_eq_length_filter]
    rw [many, countP_add_countP] at few
    have none_ : toReformulate.nodes.countP (fun c =>
        OccursByName heap model c && IsGeneralised heap model c) = 0 := by omega
    rw [List.countP_eq_zero] at none_
    exact none_ n member (by simp [known, generalised])
  · intro apart
    refine ⟨(uses heap toReformulate model).map Prod.fst, ?_, ?_, ?_⟩
    · rw [map_fst_uses]
      apply subperm_filter_append_filter
      simpa using apart
    · intro n member known
      rw [map_fst_uses]
      exact List.mem_append_left _ (List.mem_filter.mpr ⟨member, decide_eq_true known⟩)
    · rw [List.forall₂_map_left_iff]
      have both := (List.forall₂_and_left _ _).mpr ⟨fun _ member => member, nodes⟩
      exact both.imp fun u it there => instantiatedFor_of_mem_uses apart there.1 there.2

/-! ### A user -/

section Example

/-- A user, and an instance of it. -/
def userInstance : Heap :=
  (({} : Heap).constructed {} { value := "user" } { name := "user" }).withChild 0 1
    { value := "user" } { name := "user" }

/-- The reformulation of a single node by a model that has the user. -/
def reformulatedUser (n : ConceptRef) :
    EStateM.Result SimulationFailure Heap (Option SimulatedNetwork) :=
  (apply (fun _ => ⟨0, by decide⟩) Simulation.plainSetting 4 { nodes := [n] }
    { nodes := [0] }).run userInstance

theorem wellFormed_userInstance : userInstance.WellFormed := by
  have none : ∀ g ∈ (({} : TypedKLine ConceptRef)).values, g < ({} : Heap).concepts.size :=
    List.forall_mem_nil _
  exact (Heap.wellFormed_empty.constructed none { value := "user" }
    { name := "user" }).withChild Nat.zero_lt_one 1 { value := "user" } { name := "user" }

theorem hasNetwork_userInstance : userInstance.HasNetwork { nodes := [0] } :=
  ⟨by decide +kernel, by decide +kernel⟩

theorem exists_reformulatedUser {n : ConceptRef} (inside : n < 2) :
    ∃ network t, reformulatedUser n = .ok (some network) t := by
  have exist : ∀ c ∈ [n], c < userInstance.concepts.size := by
    rw [List.forall_mem_singleton]
    exact inside
  have found : ∀ n < 2, OccursByName userInstance { nodes := [0] } n ∧
      (userInstance.notProcessedEach Simulation.plainSetting.textCase { nodes := [0] } 4
        (reformulated userInstance { nodes := [n] } { nodes := [0] }) []
          (reformulated userInstance { nodes := [n] } { nodes := [0] })).isSome := by
    decide +kernel
  exact (exists_run_apply_iff wellFormed_userInstance hasNetwork_userInstance exist).mpr
    ⟨⟨n, List.mem_singleton_self n, Or.inl (found n inside).1⟩,
      Simulation.isSome_notProcessedEach_iff.mp (found n inside).2⟩

/-- The user is reformulated as itself. -/
theorem user_usesEachOnce : ∃ network t, reformulatedUser 0 = .ok (some network) t ∧
    UsesEachOnce userInstance t { nodes := [0] } { nodes := [0] } network := by
  obtain ⟨network, t, run⟩ := exists_reformulatedUser Nat.zero_lt_two
  refine ⟨network, t, run, (usesEachOnce_iff wellFormed_userInstance hasNetwork_userInstance
    (by decide +kernel) run).mpr (by decide +kernel)⟩

/-- The instance is reformulated as itself, and the user is for it too. -/
theorem userInstance_usedTwice : ∃ network t, reformulatedUser 1 = .ok (some network) t ∧
    ¬ UsesEachOnce userInstance t { nodes := [1] } { nodes := [0] } network := by
  obtain ⟨network, t, run⟩ := exists_reformulatedUser Nat.one_lt_two
  refine ⟨network, t, run, ?_⟩
  rintro ⟨origins, among, -, stand⟩
  obtain ⟨links, made⟩ := networkOf_of_run_apply wellFormed_userInstance hasNetwork_userInstance
    (by decide +kernel) run
  have two : (reformulated userInstance { nodes := [1] } { nodes := [0] }).length = 2 := by
    decide +kernel
  have one : origins.length ≤ 1 := among.length_le
  rw [stand.length_eq, ← made.nodes.length_eq, two] at one
  omega

end Example

end Reformulation

end ThinkingUnderstanding
