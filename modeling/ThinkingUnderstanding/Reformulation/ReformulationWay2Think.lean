import ThinkingUnderstanding.Reformulation.EachOnce

/-!
# When does the reformulation of a context throw?

`ReformulationWay2Think.apply` should reformulate the last result of a context by the reformulation
model, and throw `NoExpectedInformationException` where it cannot. What it casts to a network is
not the last result but the `Option` that may hold it. The cast always fails, and the exception is
turned into the expected one: every context is refused.

## Main definitions

* `ReformulationWay2Think.CastObject` — what is cast, which knows its class only when it runs
* `ReformulationWay2Think.apply` — the method
* `ReformulationWay2Think.Computes` — the network that should be the new last result
* `ReformulationWay2Think.ThrowsWhenItMust` — the exception is thrown when there is none, and only
  then

## Main results

* `run_apply_error` — every context is refused
* `throwsWhenItMust_iff` — the contexts for which this is right
-/

namespace ThinkingUnderstanding

open Math Semantics

namespace ReformulationWay2Think

/-- Why the method ends with an exception. -/
inductive Failure
  | noExpectedInformationException (message : String)
  | classCastException (message : String)
  | simulation (failure : SimulationFailure)
  deriving DecidableEq, Repr

/-- An object that is cast: an option, or a resource itself. -/
inductive CastObject
  | option (value : Option Resource)
  | resource (value : Resource)
  deriving DecidableEq, Repr

/-- `asInstanceOf[ConceptNetwork]`. The message of the exception is made by the virtual machine. -/
def asConceptNetwork (castMessage : CastObject → String) :
    CastObject → EStateM Failure Heap NetworkRef
  | .resource (.conceptNetwork network _) => return network
  | object => throw (.classCastException (castMessage object))

/-- The object of a network that has been made. -/
def networkObject (network : SimulatedNetwork) : EStateM Failure Heap Resource :=
  modifyGet fun heap => (.conceptNetwork heap.networks.size network.uri,
    { heap with networks := heap.networks.alloc network.toConceptNetwork })

section Apply

variable (draws : Draws) (setting : SimulationSetting) (stack : ℕ)
  (castMessage : CastObject → String) {C P : Type}

/-- The body of the method, in which an exception of a cast is caught. -/
def applyBody (inputContext : ShortTermMemory C P) :
    EStateM Failure Heap (ShortTermMemory C P) := do
  let lastResult ← asConceptNetwork castMessage (.option inputContext.lastResult)
  match inputContext.reformulationModel with
  | some model =>
      let heap ← get
      let conceptNetworkOption ← EStateM.adaptExcept .simulation
        (Reformulation.apply draws setting stack (heap.network lastResult) (heap.network model))
      match conceptNetworkOption with
      | some cn => return ContextHelper.ofLastResult [] (← networkObject cn)
      | none => throw (.noExpectedInformationException "$No_matches_detected_in_domain_model")
  | none => throw (.noExpectedInformationException "$No_domain_model_specified")

/-- `ReformulationWay2Think.apply`. -/
def apply (inputContext : ShortTermMemory C P) : EStateM Failure Heap (ShortTermMemory C P) :=
  tryCatch (applyBody draws setting stack castMessage inputContext) fun failure =>
    match failure with
    | .classCastException message =>
        throw (.noExpectedInformationException
          ("$Context_lastResult_is_not_expectedType " ++ message))
    | failure => throw failure

/-- The last result is a network, and its reformulation by the model of the context makes another
one. -/
def Computes (heap : Heap) (inputContext : ShortTermMemory C P) (network : SimulatedNetwork) :
    Prop :=
  ∃ n uri model t, inputContext.lastResult = some (.conceptNetwork n uri) ∧
    inputContext.reformulationModel = some model ∧
      (Reformulation.apply draws setting stack (heap.network n) (heap.network model)).run heap =
        .ok (some network) t

/-- The method returns a context with the network that is computed as its last result, and throws
`NoExpectedInformationException` when none is. -/
structure ThrowsWhenItMust (heap : Heap) (inputContext : ShortTermMemory C P) : Prop where
  returns : ∀ network, Computes draws setting stack heap inputContext network → ∃ context t n,
    (apply draws setting stack castMessage inputContext).run heap = .ok context t ∧
      context.lastResult = some (.conceptNetwork n network.uri) ∧
        t.network n = network.toConceptNetwork
  throws : (∀ network, ¬ Computes draws setting stack heap inputContext network) → ∃ message t,
    (apply draws setting stack castMessage inputContext).run heap =
      .error (.noExpectedInformationException message) t

end Apply

variable {draws : Draws} {setting : SimulationSetting} {stack : ℕ}
  {castMessage : CastObject → String} {C P : Type} {heap : Heap}
  {inputContext : ShortTermMemory C P}

/-- Every context is refused, since an option is never a network. -/
theorem run_apply_error : (apply draws setting stack castMessage inputContext).run heap =
    .error (.noExpectedInformationException ("$Context_lastResult_is_not_expectedType " ++
      castMessage (.option inputContext.lastResult))) heap := rfl

/-- The exception is thrown when it must be exactly when there is no network to be computed: the
last result is none, or there is no model, or no node is used, or the search for the links of the
concepts that would get instances overflows the stack. -/
theorem throwsWhenItMust_iff (wf : heap.WellFormed)
    (holds : ∀ n, heap.HasNetwork (heap.network n)) :
    ThrowsWhenItMust draws setting stack castMessage heap inputContext ↔
      ∀ n uri model, inputContext.lastResult = some (.conceptNetwork n uri) →
        inputContext.reformulationModel = some model →
          (∃ c ∈ (heap.network n).nodes, Reformulation.OccursByName heap (heap.network model) c ∨
            Reformulation.IsGeneralised heap (heap.network model) c) →
          ¬ ∀ c ∈ Reformulation.reformulated heap (heap.network n) (heap.network model), ∀ m,
            (heap.getNodeByName (heap.network model) (heap.uriOf c).name).head? = some m →
              (heap.getGeneralisedLinks (Reformulation.reformulated heap (heap.network n)
                (heap.network model)) stack m).isSome := by
  constructor
  · intro must n uri model result hasModel used searched
    have made : ∃ network t, (Reformulation.apply draws setting stack (heap.network n)
        (heap.network model)).run heap = .ok (some network) t :=
      (Reformulation.exists_run_apply_iff wf (holds model) (holds n).nodes).mpr ⟨used, searched⟩
    obtain ⟨network, t, run⟩ := made
    -- a network that is computed would have to be returned, but none is
    obtain ⟨context, t', -, returned, -⟩ :=
      must.returns network ⟨n, uri, model, t, result, hasModel, run⟩
    cases returned
  · intro refused
    have none_ : ∀ network, ¬ Computes draws setting stack heap inputContext network := by
      rintro network ⟨n, uri, model, t, result, hasModel, run⟩
      obtain ⟨used, searched⟩ := (Reformulation.exists_run_apply_iff wf (holds model)
        (holds n).nodes).mp ⟨network, t, run⟩
      exact refused n uri model result hasModel used searched
    exact ⟨fun network computes => absurd computes (none_ network),
      fun _ => ⟨_, _, run_apply_error⟩⟩

/-! ### A network with a user -/

section Example

open Reformulation (userInstance wellFormed_userInstance)

/-- A user, an instance of it, and a network with the user. -/
def userNetwork : Heap :=
  { userInstance with networks := Arena.alloc .empty { nodes := [0] } }

theorem wellFormed_userNetwork : userNetwork.WellFormed :=
  { wellFormed_userInstance with }

theorem hasNetwork_userNetwork (n : NetworkRef) :
    userNetwork.HasNetwork (userNetwork.network n) := by
  rcases Nat.eq_zero_or_pos n with rfl | other
  · exact ⟨by decide +kernel, by decide +kernel⟩
  · have none : userNetwork.network n = default :=
      Arena.get_of_size_le _ n other
    rw [none]
    exact ⟨List.forall_mem_nil _, List.forall_mem_nil _⟩

/-- A context with the network as its last result. -/
def userContext (reformulationModel : Option NetworkRef) :
    ShortTermMemory ConceptRef PhraseRef where
  lastResult := some (.conceptNetwork 0 0)
  reformulationModel

/-- What the virtual machine says of the cast. -/
def castOfOption : CastObject → String
  | .option none => "scala.None$ cannot be cast to tu.model.knowledge.domain.ConceptNetwork"
  | .option (some _) => "scala.Some cannot be cast to tu.model.knowledge.domain.ConceptNetwork"
  | .resource _ => "resource cannot be cast to tu.model.knowledge.domain.ConceptNetwork"

/-- Without a model the context is rightly refused. -/
theorem modelless_throwsWhenItMust : ThrowsWhenItMust (fun _ => ⟨0, by decide⟩)
    Simulation.plainSetting 4 castOfOption userNetwork (userContext none) :=
  (throwsWhenItMust_iff wellFormed_userNetwork hasNetwork_userNetwork).mpr
    fun _ _ _ _ hasModel => nomatch hasModel

/-- With the network as the model, the context is refused although its network could be
reformulated. -/
theorem modelled_not_throwsWhenItMust : ¬ ThrowsWhenItMust (fun _ => ⟨0, by decide⟩)
    Simulation.plainSetting 4 castOfOption userNetwork (userContext (some 0)) := by
  intro must
  have searched : (userNetwork.notProcessedEach Simulation.plainSetting.textCase
      (userNetwork.network 0) 4 (Reformulation.reformulated userNetwork (userNetwork.network 0)
        (userNetwork.network 0)) [] (Reformulation.reformulated userNetwork (userNetwork.network 0)
          (userNetwork.network 0))).isSome := by decide +kernel
  have made : ∃ network t, (Reformulation.apply (fun _ => ⟨0, by decide⟩) Simulation.plainSetting 4
      (userNetwork.network 0) (userNetwork.network 0)).run userNetwork = .ok (some network) t :=
    (Reformulation.exists_run_apply_iff wellFormed_userNetwork (hasNetwork_userNetwork 0)
      (hasNetwork_userNetwork 0).nodes).mpr
        ⟨by decide +kernel, Simulation.isSome_notProcessedEach_iff.mp searched⟩
  obtain ⟨network, t, run⟩ := made
  obtain ⟨context, t', -, returned, -⟩ := must.returns network ⟨0, 0, 0, t, rfl, rfl, run⟩
  cases returned

end Example

end ReformulationWay2Think

end ThinkingUnderstanding
