import ThinkingUnderstanding.Math.LastMaximum
import ThinkingUnderstanding.Simulation.InstanceNetwork

/-!
# Reformulation

`Reformulation.apply` makes a network of instances of the nodes of another network. A node counts
as known when the model has one of its name, up to a number of an instance. For a node that is not
contained in the model, one of its generalisations in the model is taken, the one with the most
links to the nodes that are reformulated.

The two tests are different ones: a node with a known name need not be contained in the model.

The values of a map are listed in the order in which they were put there. The lists that are only
logged are left out.

## Main definitions

* `Heap.filterConceptList`, `Reformulation.filterGeneralisations`,
  `Reformulation.getGeneralisations` — the lookups
* `Reformulation.processAmbiguous`, `Reformulation.apply` — the methods
* `Reformulation.uses` — the nodes that are used, with the concepts that get instances

## Main results

* `filterConceptList_eq`, `filterGeneralisations_eq` — the nodes that are used
* `run_apply`, `exists_run_apply_iff` — how a reformulation ends, and when with a network
* `networkOf_of_run_apply` — what the network consists of
-/

namespace ThinkingUnderstanding

open Math Semantics

/-- `SimulationReformulationAbstract.filterConceptList`. -/
def Heap.filterConceptList (heap : Heap) (currentConcepts : List ConceptRef)
    (model : ConceptNetwork) : List ConceptRef :=
  currentConcepts.filter fun c => (heap.getNodeByName model (heap.uriOf c).name).length > 0

namespace Reformulation

section Lookups

variable (heap : Heap)

/-- The generalisations of a concept that are nodes of the model. -/
def generalisationsIn (model : ConceptNetwork) (c : ConceptRef) : InsertionMap UriRef ConceptRef :=
  (heap.generalisations c).frames.filter fun uriConcept => uriConcept.2 ∈ model.nodes

/-- `Reformulation.filterGeneralisations`. -/
def filterGeneralisations (concepts : List ConceptRef) (model : ConceptNetwork) :
    List ConceptRef :=
  concepts.filter fun c => (generalisationsIn heap model c).size > 0

/-- `Reformulation.getGeneralisations`. -/
def getGeneralisations (concepts : List ConceptRef) (model : ConceptNetwork) :
    List (InsertionMap UriRef ConceptRef) :=
  concepts.map fun c => generalisationsIn heap model c

/-- `concepts.reduceLeft(...)`: of the values of a map the one with the most links is kept. -/
def reduceGeneralisations (currentModel : ConceptNetwork)
    (uriConceptMap : InsertionMap UriRef ConceptRef) : SimulationProgram ConceptRef :=
  match heap.mostReferenced currentModel.nodes uriConceptMap.values with
  | some concept => return concept
  | none => throw (.unsupportedOperationException "empty.reduceLeft")

end Lookups

/-- `Reformulation.processAmbiguous`. -/
def processAmbiguous (maps : List (InsertionMap UriRef ConceptRef))
    (currentModel : ConceptNetwork) : SimulationProgram (List ConceptRef) := do
  let heap ← get
  maps.mapM (reduceGeneralisations heap currentModel)

/-- `Reformulation.apply`. -/
def apply (draws : Draws) (setting : SimulationSetting) (stack : ℕ)
    (toReformulate model : ConceptNetwork) : SimulationProgram (Option SimulatedNetwork) := do
  let heap ← get
  let known := heap.filterConceptList toReformulate.nodes model
  let notKnown := toReformulate.nodes.filter fun c => c ∉ model.nodes
  let foundGeneralisations := filterGeneralisations heap notKnown model
  let generalisationsMap := getGeneralisations heap foundGeneralisations model
  let unAmbiguous ← processAmbiguous generalisationsMap toReformulate
  let combined := known ++ unAmbiguous
  if combined.length > 0 then
    return some (← Simulation.instantiateConcepts draws setting stack model combined
      "Reformulation")
  else
    return none

/-! ### The nodes that are used -/

variable {heap : Heap} {toReformulate model : ConceptNetwork} {nodes : List ConceptRef}
  {c g : ConceptRef}

/-- The model has a node with the name of the concept, up to a number of an instance. -/
def OccursByName (heap : Heap) (model : ConceptNetwork) (c : ConceptRef) : Prop :=
  ∃ m ∈ model.nodes, reduceInstanceIdentifier (heap.uriOf m).name =
    reduceInstanceIdentifier (heap.uriOf c).name

/-- The concept is no node of the model, and has a generalisation that is one. -/
def IsGeneralised (heap : Heap) (model : ConceptNetwork) (c : ConceptRef) : Prop :=
  c ∉ model.nodes ∧ ∃ g ∈ heap.generalisationsList c, g ∈ model.nodes

instance : DecidablePred (OccursByName heap model) := fun _ =>
  inferInstanceAs (Decidable (∃ m ∈ model.nodes, _))

instance : DecidablePred (IsGeneralised heap model) := fun _ =>
  inferInstanceAs (Decidable (_ ∧ ∃ g ∈ _, _))

/-- The nodes that are not contained in the model, of which a generalisation is. -/
def foundGeneralisations (heap : Heap) (toReformulate model : ConceptNetwork) : List ConceptRef :=
  toReformulate.nodes.filter fun c => IsGeneralised heap model c

/-- The generalisation that is taken for a node. -/
def chosenGeneralisation (heap : Heap) (toReformulate model : ConceptNetwork) (c : ConceptRef) :
    ConceptRef :=
  (heap.mostReferenced toReformulate.nodes (generalisationsIn heap model c).values).getD 0

/-- The nodes that are used, each with the concept that gets an instance for it. -/
def uses (heap : Heap) (toReformulate model : ConceptNetwork) : List (ConceptRef × ConceptRef) :=
  (heap.filterConceptList toReformulate.nodes model).map (fun c => (c, c)) ++
    (foundGeneralisations heap toReformulate model).map fun c =>
      (c, chosenGeneralisation heap toReformulate model c)

/-- The concepts that get instances. -/
def reformulated (heap : Heap) (toReformulate model : ConceptNetwork) : List ConceptRef :=
  (uses heap toReformulate model).map Prod.snd

theorem OccursByName.of_mem (member : c ∈ model.nodes) : OccursByName heap model c :=
  ⟨c, member, rfl⟩

theorem filterConceptList_eq : heap.filterConceptList nodes model =
    nodes.filter fun c => OccursByName heap model c := by
  apply List.filter_congr
  intro c _
  rw [Bool.eq_iff_iff, decide_eq_true_eq, decide_eq_true_eq, gt_iff_lt,
    List.length_pos_iff_exists_mem, OccursByName]
  simp only [Heap.getNodeByName, List.mem_filter, decide_eq_true_eq]

theorem values_generalisationsIn (heap : Heap) (model : ConceptNetwork) (c : ConceptRef) :
    (generalisationsIn heap model c).values =
      (heap.generalisationsList c).filter fun g => g ∈ model.nodes :=
  InsertionMap.values_filter _ fun g => decide (g ∈ model.nodes)

theorem filterGeneralisations_eq : filterGeneralisations heap
    (toReformulate.nodes.filter fun c => c ∉ model.nodes) model =
      foundGeneralisations heap toReformulate model := by
  rw [filterGeneralisations, foundGeneralisations, List.filter_filter]
  apply List.filter_congr
  intro c _
  rw [Bool.eq_iff_iff, Bool.and_eq_true, decide_eq_true_eq, decide_eq_true_eq, decide_eq_true_eq,
    InsertionMap.size_eq_length_values, values_generalisationsIn, gt_iff_lt,
    List.length_pos_iff_exists_mem, IsGeneralised, and_comm]
  simp only [List.mem_filter, decide_eq_true_eq]

theorem mostReferenced_generalisationsIn (generalised : IsGeneralised heap model c) :
    heap.mostReferenced toReformulate.nodes (generalisationsIn heap model c).values =
      some (chosenGeneralisation heap toReformulate model c) := by
  obtain ⟨-, g, general, inside⟩ := generalised
  have member : g ∈ (generalisationsIn heap model c).values := by
    rw [values_generalisationsIn]
    exact List.mem_filter.mpr ⟨general, decide_eq_true inside⟩
  rw [chosenGeneralisation]
  cases values : (generalisationsIn heap model c).values with
  | nil =>
    rw [values] at member
    cases member
  | cons first rest => rfl

/-- What is taken is one of the generalisations of the node, and a node of the model. -/
theorem chosenGeneralisation_mem (generalised : IsGeneralised heap model c) :
    chosenGeneralisation heap toReformulate model c ∈ heap.generalisationsList c ∧
      chosenGeneralisation heap toReformulate model c ∈ model.nodes := by
  have chosen : heap.mostReferenced toReformulate.nodes _ = _ :=
    mostReferenced_generalisationsIn generalised
  have inside : chosenGeneralisation heap toReformulate model c ∈
      (generalisationsIn heap model c).values := by
    cases values : (generalisationsIn heap model c).values with
    | nil =>
      rw [values] at chosen
      cases chosen
    | cons first rest =>
      rw [values] at chosen
      rw [← Option.some.inj chosen]
      exact (lastMax_foldl (fun d => heap.countLinks d toReformulate.nodes) first rest).mem
  rw [values_generalisationsIn, List.mem_filter, decide_eq_true_eq] at inside
  exact inside

theorem reformulated_eq : reformulated heap toReformulate model =
    heap.filterConceptList toReformulate.nodes model ++
      (foundGeneralisations heap toReformulate model).map
        (chosenGeneralisation heap toReformulate model) := by
  simp [reformulated, uses, Function.comp_def]

theorem reformulated_eq_nil_iff : reformulated heap toReformulate model = [] ↔
    ∀ c ∈ toReformulate.nodes, ¬ OccursByName heap model c ∧ ¬ IsGeneralised heap model c := by
  rw [reformulated_eq, List.append_eq_nil_iff, List.map_eq_nil_iff, filterConceptList_eq,
    foundGeneralisations, List.filter_eq_nil_iff, List.filter_eq_nil_iff]
  simp only [decide_eq_true_eq]
  exact forall₂_and.symm

/-- The concepts that get instances exist. -/
theorem lt_of_mem_reformulated (holds : heap.HasNetwork model)
    (inside : ∀ c ∈ toReformulate.nodes, c < heap.concepts.size)
    (member : c ∈ reformulated heap toReformulate model) : c < heap.concepts.size := by
  rw [reformulated_eq, List.mem_append, filterConceptList_eq] at member
  rcases member with known | chosen
  · exact inside c (List.mem_of_mem_filter known)
  · obtain ⟨n, found, rfl⟩ := List.mem_map.mp chosen
    have generalised := of_decide_eq_true (List.mem_filter.mp found).2
    exact holds.nodes _ (chosenGeneralisation_mem generalised).2

/-! ### How a reformulation ends -/

/-- Of several generalisations in the model there is always one that is taken. -/
theorem run_processAmbiguous (heap : Heap) (toReformulate model : ConceptNetwork) :
    (processAmbiguous (getGeneralisations heap (foundGeneralisations heap toReformulate model)
        model) toReformulate).run heap =
      .ok ((foundGeneralisations heap toReformulate model).map
        (chosenGeneralisation heap toReformulate model)) heap := by
  have run : ((getGeneralisations heap (foundGeneralisations heap toReformulate model) model).mapM
      (reduceGeneralisations heap toReformulate)).run heap = .ok ((getGeneralisations heap
        (foundGeneralisations heap toReformulate model) model).map fun uriConceptMap =>
          (heap.mostReferenced toReformulate.nodes uriConceptMap.values).getD 0) heap := by
    apply run_mapM_of_forall
    intro uriConceptMap member
    obtain ⟨c, found, rfl⟩ := List.mem_map.mp member
    have generalised := of_decide_eq_true (List.mem_filter.mp found).2
    rw [reduceGeneralisations, mostReferenced_generalisationsIn generalised]
    rfl
  rwa [getGeneralisations, List.map_map] at run

section Run

variable (draws : Draws) (setting : SimulationSetting) (stack : ℕ)

/-- A reformulation makes the network of the instances, unless there are none. -/
theorem run_apply (heap : Heap) (toReformulate model : ConceptNetwork) :
    (apply draws setting stack toReformulate model).run heap =
      if reformulated heap toReformulate model = [] then .ok none heap
      else (Simulation.instantiateConcepts draws setting stack model
        (reformulated heap toReformulate model) "Reformulation" >>= fun network =>
          return some network).run heap := by
  have ambiguities := run_processAmbiguous heap toReformulate model
  rw [← filterGeneralisations_eq] at ambiguities
  rw [apply, EStateM.run_bind]
  change (processAmbiguous _ toReformulate >>= fun _ => _).run heap = _
  rw [EStateM.run_bind, ambiguities, filterGeneralisations_eq, reformulated_eq]
  simp only [gt_iff_lt, List.length_pos_iff, ite_not]
  split_ifs
  · rfl
  · rfl

variable {draws setting stack}

section Returned

variable (wf : heap.WellFormed) (holds : heap.HasNetwork model)
  (inside : ∀ c ∈ toReformulate.nodes, c < heap.concepts.size)

include wf holds inside

/-- A network that is returned consists of the instances. -/
theorem networkOf_of_run_apply {t : Heap} {network : SimulatedNetwork}
    (run : (apply draws setting stack toReformulate model).run heap = .ok (some network) t) :
    ∃ links, Simulation.NetworkOf draws heap t (reformulated heap toReformulate model) links
      "Reformulation" network := by
  rw [run_apply] at run
  split_ifs at run with empty
  · cases run
  · obtain ⟨network', t', run', returned⟩ := run_bind_eq_ok_iff.mp run
    cases returned
    obtain ⟨links, -, made⟩ := Simulation.networkOf_of_run draws wf holds
      (fun c => lt_of_mem_reformulated holds inside) "Reformulation" run'
    exact ⟨links, made⟩

/-- A network is returned when some node is used, and the links of all concepts that get instances
can be searched on the stack. -/
theorem exists_run_apply_iff :
    (∃ network t, (apply draws setting stack toReformulate model).run heap = .ok (some network) t) ↔
      (∃ c ∈ toReformulate.nodes, OccursByName heap model c ∨ IsGeneralised heap model c) ∧
        ∀ c ∈ reformulated heap toReformulate model, ∀ m,
          (heap.getNodeByName model (heap.uriOf c).name).head? = some m →
            (heap.getGeneralisedLinks (reformulated heap toReformulate model) stack m).isSome := by
  -- nothing to reformulate means no network, otherwise the searches decide
  have some_ : (∃ c ∈ toReformulate.nodes, OccursByName heap model c ∨ IsGeneralised heap model c) ↔
      reformulated heap toReformulate model ≠ [] := by
    rw [Ne, reformulated_eq_nil_iff]
    push Not
    simp only [or_iff_not_imp_left]
  have search : (heap.notProcessedEach setting.textCase model stack
      (reformulated heap toReformulate model) [] (reformulated heap toReformulate model)).isSome ↔
        _ := Simulation.isSome_notProcessedEach_iff
  have exist : ∀ c ∈ reformulated heap toReformulate model, c < heap.concepts.size := fun c =>
    lt_of_mem_reformulated holds inside
  rw [some_, ← search, run_apply]
  split_ifs with empty
  · refine iff_of_false ?_ fun both => both.1 empty
    rintro ⟨network, t, run⟩
    cases run
  · rw [and_iff_right empty]
    constructor
    · rintro ⟨network, t, run⟩
      obtain ⟨network', t', run', -⟩ := run_bind_eq_ok_iff.mp run
      obtain ⟨links, found, -⟩ :=
        Simulation.networkOf_of_run draws wf holds exist "Reformulation" run'
      exact Option.isSome_of_eq_some found
    · intro returns
      obtain ⟨links, found⟩ := Option.isSome_iff_exists.mp returns
      obtain ⟨network, t, run, -⟩ :=
        Simulation.run_instantiateConcepts draws wf holds exist "Reformulation" found
      exact ⟨network, t, run_bind_eq_ok_iff.mpr ⟨network, t, run, rfl⟩⟩

end Returned

end Run

end Reformulation

end ThinkingUnderstanding
