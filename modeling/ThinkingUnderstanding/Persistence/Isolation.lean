import ThinkingUnderstanding.LifeCycle.Calls
import ThinkingUnderstanding.Persistence.Growth
import ThinkingUnderstanding.Persistence.KBAdapter

/-!
# Isolation of models

Two models are held under different names, and everything that happens, happens to the
first: it is loaded, trained, merged into, and saved. The second one is to be found as it was.

Nothing but two assignments can reach it. A merge and a training assign to the network that is
found for the first name. When that is the network of the second one, because both were missing
and were made of the same default network, the second model changes with the first. A merge
also assigns to the concept that it replaces, whichever network has it.

## Main definitions

* `Process`, `Operation`, `Operation.perform` — what happens to the first model
* `Watch`, `Watch.Guarded` — the state in which the second model is as it was
* `Watch.Apart` — the first name does not lead to the network of the second
* `Process.callsOfTraining` — the calls of actors that a training makes
* `Operation.Safe` — the condition under which an operation leaves the second model alone

## Main results

* `Watch.Guarded.perform` — the step
* `domainModel_isolated` — for sequences of operations
-/

namespace ThinkingUnderstanding

open Math Semantics ThinkingLifeCycle

/-! ### What a program for a name leaves as it was -/

namespace World

/-- The second state has been reached from the first by loading and saving under a name, whose
text has not changed. -/
structure Serves (name : UriRef) (network : Option NetworkRef) (s t : World) : Prop where
  grows : s.Grows (s.heap.uri name).text network t
  text : (t.heap.uri name).text = (s.heap.uri name).text

variable {name : UriRef} {network : Option NetworkRef}

instance : IsPreorder World (Serves name network) where
  refl s := ⟨.refl _ _ s, rfl⟩
  trans _ _ _ first second :=
    ⟨first.grows.trans (first.text ▸ second.grows), second.text.trans first.text⟩

end World

variable {platform : Platform} {stack : ℕ}

/-- The text that is returned is the one that the URI object has, and it is kept. -/
theorem run_uriText_eq_ok {u : UriRef} {s t : World} {text : String}
    (run : (uriText platform u).run s = .ok text t) :
    text = (s.heap.uri u).text ∧ (t.heap.uri u).cached = some text := by
  unfold uriText at run
  simp only [EStateM.run_bind, EStateM.run_get] at run
  cases cached : (s.heap.uri u).cached with
  | some known =>
    rw [cached] at run
    cases run
    refine ⟨?_, cached⟩
    rw [KnowledgeURI.text, cached]
    rfl
  | none =>
    rw [cached] at run
    dsimp only at run
    split_ifs at run
    · cases run
      refine ⟨?_, ?_⟩
      · rw [KnowledgeURI.text, cached]
        rfl
      · have assigned := Arena.get_modify_self s.heap.uris u
          fun uri => { uri with cached := some uri.format }
        exact congrArg KnowledgeURI.cached assigned
    · cases run

theorem run_uriText_eq_error {u : UriRef} {s t : World} {failure : KBFailure}
    (run : (uriText platform u).run s = .error failure t) : t = s := by
  unfold uriText at run
  simp only [EStateM.run_bind, EStateM.run_get] at run
  cases cached : (s.heap.uri u).cached with
  | some known =>
    rw [cached] at run
    exact nomatch run
  | none =>
    rw [cached] at run
    dsimp only at run
    split_ifs at run
    · exact nomatch run
    · cases run
      rfl

/-- A program that first asks for the text of the name. -/
theorem respects_uriText_bind {α : Type} {name : UriRef} {network : Option NetworkRef}
    {rest : String → KBProgram α} (follows : ∀ text, Respects (World.Grows text network) (rest text)) :
    Respects (World.Serves name network) (uriText platform name >>= rest) := by
  intro s
  have asked := loads_uriText platform name s
  rw [EStateM.run_bind]
  cases run : (uriText platform name).run s with
  | error failure t =>
    rw [run_uriText_eq_error run]
    exact refl_of (World.Serves name network) s
  | ok text t =>
    rw [run] at asked
    obtain ⟨same, kept⟩ := run_uriText_eq_ok run
    have grown := follows text t
    refine ⟨?_, ?_⟩
    · rw [← same]
      exact (asked.grows text network).trans grown
    · rw [← same, KnowledgeURI.text]
      change ((finalState ((rest text).run t)).heap.uri name).cached.getD _ = text
      rw [grown.heap.uris name text kept]
      rfl

theorem run_orOnFailure {α : Type} (program : KBProgram α) (handler : KBFailure → KBProgram α)
    (s : World) : (orOnFailure program handler).run s =
      match program.run s with
      | .ok a t => .ok a t
      | .error failure t => (handler failure).run t := rfl

theorem respects_orOnFailure {α : Type} {R : World → World → Prop} [IsPreorder World R]
    {program : KBProgram α} {handler : KBFailure → KBProgram α} (first : Respects R program)
    (second : ∀ failure, Respects R (handler failure)) : Respects R (orOnFailure program handler) := by
  intro s
  have start := first s
  rw [run_orOnFailure]
  cases run : program.run s with
  | ok a t =>
    rw [run] at start
    exact start
  | error failure t =>
    rw [run] at start
    exact IsTrans.trans s t _ start (second failure t)

section Programs

variable (platform stack) (domainModelConceptNetwork : NetworkRef) (name : UriRef)

theorem respects_loadModel (network : Option NetworkRef) :
    Respects (World.Serves name network) (loadModel platform stack name) :=
  respects_uriText_bind fun _ s =>
    (World.Extended.maintains_loadNetwork stack _ _ _ s (.refl s)).1.loads.grows _ _

theorem respects_saveModel (model : NetworkRef) :
    Respects (World.Serves name (some model))
      (LongTermMemory.saveModel platform stack name model) :=
  respects_uriText_bind fun key => respects_saveAnew stack model _ key

theorem respects_someModel (calls : ℕ) :
    Respects (World.Serves name (some domainModelConceptNetwork))
      (LongTermMemory.someModel platform stack domainModelConceptNetwork calls name) := by
  induction calls with
  | zero => exact respects_throw _
  | succ calls ih =>
    refine respects_orOnFailure (respects_loadModel platform stack name _) fun failure => ?_
    dsimp only
    split_ifs
    · exact (respects_throw failure).bind fun _ =>
        (respects_saveModel platform stack name domainModelConceptNetwork).bind fun _ => ih
    · exact (respects_saveModel platform stack name domainModelConceptNetwork).bind fun _ => ih

theorem respects_adapterSomeModel :
    Respects (World.Serves name (some domainModelConceptNetwork))
      (KBAdapter.someModel platform stack domainModelConceptNetwork name) :=
  respects_orOnFailure (respects_loadModel platform stack name _) fun _ =>
    (respects_saveModel platform stack name domainModelConceptNetwork).bind fun _ =>
      respects_pure domainModelConceptNetwork

end Programs

/-- The network that is loaded for a name is held at a node that is stored under its text. -/
theorem run_loadModel_eq_ok {name : UriRef} {s t : World} {n : NetworkRef}
    (run : (loadModel platform stack name).run s = .ok n t) :
    t.kb = s.kb ∧ (t.heap.uri name).cached = some (s.heap.uri name).text ∧
      ∃ rel ∈ s.kb.relationshipsOf KB.rootId defaultLinkName, rel.key = (s.heap.uri name).text ∧
        platform.acceptsURI (KnowledgeURI.ofMap platform (s.kb.node rel.endNode)).format ∧
        t.id2object rel.endNode = some (.network n) ∧
        (s.id2object rel.endNode = some (.network n) ∨ s.heap.networks.size ≤ n) := by
  obtain ⟨text, m, asked, run⟩ := run_bind_eq_ok_iff.mp run
  have before := loads_uriText platform name s
  rw [asked] at before
  obtain ⟨rfl, cached⟩ := run_uriText_eq_ok asked
  -- the text of the name is asked for first, and then the network is loaded
  have after := (World.Extended.of_run (World.Extended.maintains_loadNetwork stack _ _ _) run).loads
  obtain ⟨selfMap, found, accepted, loaded, origin⟩ := run_loadNetwork_eq_ok run
  refine ⟨after.kb.trans before.kb, after.heap.uris _ _ cached, ?_⟩
  rw [KB.loadChild, KB.getNodeById_of_hasNode m.kb.hasRoot] at found
  obtain ⟨rel, first, rfl⟩ := Option.map_eq_some_iff.mp found
  have member := (platform.order_perm _).mem_iff.mp (List.mem_of_find?_eq_some first)
  have key := List.find?_some first
  rw [KB.id_node] at loaded origin
  rw [show m.kb = s.kb from before.kb] at member accepted
  refine ⟨rel, member, of_decide_eq_true key, accepted, loaded, ?_⟩
  rcases origin with held | new
  · exact before.new _ _ held
  · exact Or.inr (before.heap.size_networks_le.trans new)

/-- A model that is returned has been loaded by the last of the calls. -/
theorem exists_run_loadModel {calls : ℕ} {name : UriRef} {s t : World} {n : NetworkRef}
    {domainModelConceptNetwork : NetworkRef}
    (run : (LongTermMemory.someModel platform stack domainModelConceptNetwork calls name).run s =
      .ok n t) : ∃ s', (loadModel platform stack name).run s' = .ok n t := by
  induction calls generalizing s with
  | zero => exact nomatch run
  | succ calls ih =>
    rw [LongTermMemory.someModel, run_orOnFailure] at run
    cases loading : (loadModel platform stack name).run s with
    | ok n' t' =>
      rw [loading] at run
      cases run
      exact ⟨s, loading⟩
    | error failure s₁ =>
      rw [loading] at run
      dsimp only at run
      split_ifs at run
      · exact nomatch run
      · obtain ⟨_, s₂, _, run⟩ := run_bind_eq_ok_iff.mp run
        exact ih run

/-! ### The second model -/

/-- What is watched: two names, the text of the second one, the node and the network it leads
to, and the heap at the time. -/
structure Watch where
  first : UriRef
  second : UriRef
  key : String
  id : ℕ
  network : NetworkRef
  heap : Heap

namespace Watch

variable (platform stack) (domainModelConceptNetwork : NetworkRef) (watch : Watch)

/-- The nodes of the second model. -/
def nodes : List ConceptRef := (watch.heap.network watch.network).nodes

/-- The links of the second model. -/
def links : List LinkRef := (watch.heap.network watch.network).links

/-- The second model is found under its name and is as it was; the other name has another text. -/
structure Guarded (s : World) : Prop where
  stored : ∃ rel ∈ s.kb.relationshipsOf KB.rootId defaultLinkName, rel.key = watch.key
  unique : ∀ rel ∈ s.kb.relationshipsOf KB.rootId defaultLinkName,
    rel.key = watch.key → rel.endNode = watch.id
  accepted : platform.acceptsURI (KnowledgeURI.ofMap platform (s.kb.node watch.id)).format
  loaded : s.id2object watch.id = some (.network watch.network)
  allocated : watch.network < s.heap.networks.size
  network : s.heap.network watch.network = watch.heap.network watch.network
  concepts : ∀ c ∈ watch.nodes,
    c < s.heap.concepts.size ∧ s.heap.concept c = watch.heap.concept c
  conceptLinks : ∀ l ∈ watch.links, l < s.heap.links.size ∧ s.heap.link l = watch.heap.link l
  named : (s.heap.uri watch.second).cached = some watch.key
  different : (s.heap.uri watch.first).text ≠ watch.key

/-- No node that is stored under the first name is held as the second network. -/
def NodesApart (s : World) : Prop :=
  ∀ rel ∈ s.kb.relationshipsOf KB.rootId defaultLinkName,
    rel.key = (s.heap.uri watch.first).text →
      s.id2object rel.endNode ≠ some (.network watch.network)

/-- The first name does not lead to the second network: no node that is stored under it is held as
that network, and the default network is another one, unless it is not needed because the first
model can be loaded. -/
def Apart (s : World) : Prop :=
  watch.NodesApart s ∧ (domainModelConceptNetwork ≠ watch.network ∨
    ∃ n t, (loadModel platform stack watch.first).run s = .ok n t)

variable {platform stack domainModelConceptNetwork watch}

namespace Guarded

variable {s t : World}

theorem hasNode (guarded : watch.Guarded platform s) : s.kb.HasNode watch.id := by
  obtain ⟨rel, member, key⟩ := guarded.stored
  rw [← guarded.unique rel member key]
  exact (s.kb.joined rel (KB.mem_relationshipsOf.mp member).1).2

/-- Nothing that is done for the first name reaches the second model. -/
theorem serves (guarded : watch.Guarded platform s) {network : Option NetworkRef}
    (served : s.Serves watch.first network t) : watch.Guarded platform t where
  stored := by
    obtain ⟨rel, member, key⟩ := guarded.stored
    rw [KB.mem_relationshipsOf] at member
    exact ⟨rel, KB.mem_relationshipsOf.mpr
      ⟨served.grows.relationships rel member.1, member.2⟩, key⟩
  unique rel member key := by
    rw [KB.mem_relationshipsOf] at member
    -- a relationship that is new has the key of the first domain
    rcases served.grows.models rel member.1 member.2.2 with old | ⟨same, -⟩
    · exact guarded.unique rel (KB.mem_relationshipsOf.mpr ⟨old, member.2⟩) key
    · exact absurd (same.symm.trans key) guarded.different
  accepted := by
    rw [served.grows.node guarded.hasNode]
    exact guarded.accepted
  loaded := served.grows.kept _ _ guarded.hasNode guarded.loaded
  allocated := (served.grows.heap.networks _ guarded.allocated).1
  network := ((served.grows.heap.networks _ guarded.allocated).2 fun h => nomatch h).trans
    guarded.network
  concepts c member := by
    obtain ⟨below, same⟩ := guarded.concepts c member
    obtain ⟨below', same'⟩ := served.grows.heap.concepts c below
    exact ⟨below', (same' fun h => nomatch h).trans same⟩
  conceptLinks l member := by
    obtain ⟨below, same⟩ := guarded.conceptLinks l member
    obtain ⟨below', same'⟩ := served.grows.heap.links l below
    exact ⟨below', same'.trans same⟩
  named := served.grows.heap.uris _ _ guarded.named
  different := served.text ▸ guarded.different

/-- Assigning to a concept that is not a node of the second model. -/
theorem assignConcept (guarded : watch.Guarded platform s) {c : ConceptRef}
    (other : c ∉ watch.nodes) (f : Concept → Concept) :
    watch.Guarded platform
      { s with heap := { s.heap with concepts := s.heap.concepts.modify c f } } := by
  refine { guarded with concepts := fun i member => ?_ }
  obtain ⟨below, same⟩ := guarded.concepts i member
  refine ⟨Nat.lt_of_lt_of_le below (Arena.size_le_size_modify ..), ?_⟩
  exact (Arena.get_modify_of_ne _ (fun here : i = c => other (here ▸ member)) _).trans same

/-- Assigning to another network. -/
theorem assignNetwork (guarded : watch.Guarded platform s) {n : NetworkRef}
    (other : n ≠ watch.network) (f : ConceptNetwork → ConceptNetwork) :
    watch.Guarded platform
      { s with heap := { s.heap with networks := s.heap.networks.modify n f } } :=
  { guarded with
    allocated := Nat.lt_of_lt_of_le guarded.allocated (Arena.size_le_size_modify ..)
    network := (Arena.get_modify_of_ne _ other.symm _).trans guarded.network }

end Guarded

/-! ### The first name does not lead to the second network -/

section Apart

variable {s t : World} {n : NetworkRef}

namespace Guarded

theorem ne_of_run_loadModel (guarded : watch.Guarded platform s) (apart : watch.NodesApart s)
    (run : (loadModel platform stack watch.first).run s = .ok n t) : n ≠ watch.network := by
  obtain ⟨-, -, rel, member, key, -, -, held | new⟩ := run_loadModel_eq_ok run
  · exact fun same => apart rel member key (same ▸ held)
  · exact Nat.ne_of_gt (Nat.lt_of_lt_of_le guarded.allocated new)

/-- What is stored for the first name is not the second network, so the names stay apart. -/
theorem nodesApart (guarded : watch.Guarded platform s) (apart : watch.NodesApart s)
    {model : NetworkRef} (other : model ≠ watch.network)
    (served : s.Serves watch.first (some model) t) : watch.NodesApart t := by
  intro rel member key held
  rw [KB.mem_relationshipsOf] at member
  rw [served.text] at key
  rcases served.grows.models rel member.1 member.2.2 with old | ⟨-, n, saved, found⟩
  · rcases served.grows.new _ _ held with before | new | saved
    · exact apart rel (KB.mem_relationshipsOf.mpr ⟨old, member.2⟩) key before
    · exact absurd guarded.allocated (Nat.not_lt_of_le new)
    · exact other (Option.some.inj saved).symm
  · rw [held] at found
    cases found
    exact other (Option.some.inj saved).symm

/-- A model that cannot be loaded is made of the default network. -/
theorem of_run_loadModel_eq_error (guarded : watch.Guarded platform s)
    (apart : watch.Apart platform stack domainModelConceptNetwork s) {failure : KBFailure}
    (run : (loadModel platform stack watch.first).run s = .error failure t) :
    domainModelConceptNetwork ≠ watch.network ∧ watch.Guarded platform t ∧ watch.NodesApart t := by
  rcases apart with ⟨nodes, other | ⟨_, _, loaded⟩⟩
  · have served :=
      respects_loadModel platform stack watch.first (some domainModelConceptNetwork) s
    rw [run] at served
    exact ⟨other, guarded.serves served, guarded.nodesApart nodes other served⟩
  · rw [run] at loaded
    exact nomatch loaded

/-- `LongTermMemory.someModel` does not return the second network for the first name. -/
theorem ne_of_run_someModel (guarded : watch.Guarded platform s)
    (apart : watch.Apart platform stack domainModelConceptNetwork s) {calls : ℕ}
    (run : (LongTermMemory.someModel platform stack domainModelConceptNetwork calls
      watch.first).run s = .ok n t) : n ≠ watch.network := by
  -- on the calls: a load that fails saves the default network under the first name
  induction calls generalizing s with
  | zero => exact nomatch run
  | succ calls ih =>
    rw [LongTermMemory.someModel, run_orOnFailure] at run
    cases loading : (loadModel platform stack watch.first).run s with
    | ok n' t' =>
      rw [loading] at run
      cases run
      exact guarded.ne_of_run_loadModel apart.1 loading
    | error failure s₁ =>
      obtain ⟨other, guarded₁, apart₁⟩ := guarded.of_run_loadModel_eq_error apart loading
      rw [loading] at run
      dsimp only at run
      split_ifs at run
      · exact nomatch run
      · obtain ⟨_, s₂, saving, run⟩ := run_bind_eq_ok_iff.mp run
        have served := respects_saveModel platform stack watch.first domainModelConceptNetwork s₁
        change (LongTermMemory.saveModel platform stack watch.first domainModelConceptNetwork).run
          s₁ = .ok _ s₂ at saving
        rw [saving] at served
        exact ih (guarded₁.serves served)
          ⟨guarded₁.nodesApart apart₁ other served, Or.inl other⟩ run

/-- Neither does `KBAdapter.someModel`. -/
theorem ne_of_run_adapterSomeModel (guarded : watch.Guarded platform s)
    (apart : watch.Apart platform stack domainModelConceptNetwork s)
    (run : (KBAdapter.someModel platform stack domainModelConceptNetwork watch.first).run s =
      .ok n t) : n ≠ watch.network := by
  rw [KBAdapter.someModel, run_orOnFailure] at run
  cases loading : (loadModel platform stack watch.first).run s with
  | ok n' t' =>
    rw [loading] at run
    cases run
    exact guarded.ne_of_run_loadModel apart.1 loading
  | error failure s₁ =>
    rw [loading] at run
    obtain ⟨_, _, _, run⟩ := run_bind_eq_ok_iff.mp run
    cases run
    exact (guarded.of_run_loadModel_eq_error apart loading).1

end Guarded

end Apart

end Watch

/-! ### Operations -/

/-- A process: the platform, the depth of its stack, the default network, the number of calls of
`someModel` within each other, the names of the classes of its resources, and what the default
solutions are made of. -/
structure Process where
  platform : Platform
  stack : ℕ
  domainModelConceptNetwork : NetworkRef
  calls : ℕ
  className : ℕ → Option String
  solutionDefaults : SolutionDefaults

namespace Process

variable (process : Process)

/-- `LongTermMemory.domainModel`. -/
def domainModel (name : UriRef) : KBProgram NetworkRef :=
  LongTermMemory.someModel process.platform process.stack process.domainModelConceptNetwork
    process.calls name

/-- `KBAdapter.solutions`. A solved issue is named by its URI object, which is made for it. -/
def solutions : KBProgram (List ℕ) := do
  let issues ← KBAdapter.solutions process.platform process.className process.stack
    process.solutionDefaults
  return issues.map LoadedIssue.uri

/-- The long-term memory of the life cycle. -/
def memory : ModelMemory World :=
  longTermMemory process.platform process.stack process.domainModelConceptNetwork process.calls
    (asFailure process.solutions)

end Process

/-- The calls of a training: of the run of its goals, once the models have been loaded. -/
def Process.callsOfTraining {C P : Type} [DecidableEq C] [DecidableEq P] (process : Process)
    (env : Environment World C P) (depth rounds : ℕ) (request : TrainingRequest)
    (s : LifeCycle World C P) : List (Call World C P) :=
  match (Training.initializeGlobalContext process.memory request).run s with
  | .ok _ m => callsOf env depth rounds KBAdapter.trainingWorkflow m
  | .error _ _ => []

/-- What happens to the first model. A training comes with the actors, the bounds of the run, the
context before it, and the resource of the request. -/
inductive Operation (C P : Type)
  | load
  | merge (updatedConcept : ShortTermMemoryConceptWrapper)
  | saveModel (model : NetworkRef)
  | train (env : Environment World C P) (depth rounds : ℕ) (globalContext : ShortTermMemory C P)
      (inputResource : Resource)

namespace Operation

variable {C P : Type} [DecidableEq C] [DecidableEq P] (process : Process) (first : UriRef)

/-- The state an operation leaves, whether it returns or raises an exception. -/
def perform (s : World) : Operation C P → World
  | load => finalState ((process.domainModel first).run s)
  | merge updatedConcept =>
      finalState ((LongTermMemory.merge process.platform process.stack
        process.domainModelConceptNetwork updatedConcept first).run s)
  | saveModel model =>
      finalState ((LongTermMemory.saveModel process.platform process.stack first model).run s)
  | train env depth rounds globalContext inputResource =>
      (finalState ((Training.applyTraining process.memory env depth rounds
        { inputResource, domainName := first }).run { globalContext, world := s })).world

/-- The condition for an operation in a state. A merge and a training need a first name that does
not lead to the second network. Besides, a merge must replace a concept that is no node of the
second model, and the calls of actors that a training makes must leave the second model alone. -/
def Safe (watch : Watch) (s : World) : Operation C P → Prop
  | load => True
  | saveModel _ => True
  | merge updatedConcept =>
      watch.Apart process.platform process.stack process.domainModelConceptNetwork s ∧
        updatedConcept.longTermMemoryConcept ∉ watch.nodes
  | train env depth rounds globalContext inputResource =>
      watch.Apart process.platform process.stack process.domainModelConceptNetwork s ∧
        ∀ call ∈ process.callsOfTraining env depth rounds
          { inputResource, domainName := watch.first } { globalContext, world := s },
          env.Keeps (watch.Guarded process.platform) call

/-- Every operation of a sequence is safe in the state in which it starts. -/
def AllSafe (watch : Watch) : List (Operation C P) → World → Prop
  | [], _ => True
  | operation :: rest, s =>
      operation.Safe process watch s ∧ AllSafe watch rest (operation.perform process watch.first s)

end Operation

/-! ### The step -/

/-- The global contexts of the two states have the same domain model. -/
def SameDomainModel {C P : Type} (s t : LifeCycle World C P) : Prop :=
  t.globalContext.domainModel = s.globalContext.domainModel

instance {C P : Type} : IsPreorder (LifeCycle World C P) SameDomainModel where
  refl _ := rfl
  trans _ _ _ first second := second.trans first

namespace Watch.Guarded

variable {platform : Platform} {stack : ℕ} {domainModelConceptNetwork : NetworkRef}
  {watch : Watch} {s : World}

/-- A merge for the first name leaves the second model alone. -/
theorem merge (guarded : watch.Guarded platform s)
    (apart : watch.Apart platform stack domainModelConceptNetwork s)
    (updatedConcept : ShortTermMemoryConceptWrapper)
    (other : updatedConcept.longTermMemoryConcept ∉ watch.nodes) :
    watch.Guarded platform (finalState ((LongTermMemory.merge platform stack
      domainModelConceptNetwork updatedConcept watch.first).run s)) := by
  have served := guarded.serves
    (respects_adapterSomeModel platform stack domainModelConceptNetwork watch.first s)
  refine holds_bind (fun failure t run => ?_) fun n t run => ?_
  · rwa [run] at served
  · rw [run] at served
    have network := guarded.ne_of_run_adapterSomeModel apart run
    refine Maintains.keeps (Q := fun _ => True) ?_ served
    refine maintains_get_bind fun _ _ => maintains_get_bind fun _ _ => ?_
    split_ifs
    · refine Maintains.bind (Q := fun _ => True) ?_ fun _ _ => ?_
      · exact maintains_get_bind fun _ _ =>
          maintains_modify fun _ guarded => guarded.assignConcept other _
      · refine maintains_get_bind fun _ _ => ?_
        refine Maintains.bind (Q := fun _ => True) ?_ fun _ _ => maintains_pure trivial
        exact maintains_modify fun _ guarded => guarded.assignNetwork network _
    · exact maintains_pure trivial

end Watch.Guarded

section Training

variable {C P : Type} [DecidableEq C] [DecidableEq P] {process : Process} {watch : Watch}

/-- The goals of a training leave the model of the context. -/
theorem sameDomainModel_runGoals (env : Environment World C P) (depth rounds : ℕ)
    (targetGoals : List Goal) :
    Respects SameDomainModel (runGoals env depth rounds targetGoals) := by
  refine respects_runGoals env (fun name s => ?_) (fun _ _ _ => rfl) depth rounds targetGoals
  rcases answered : env.act name s.globalContext s.world with ⟨reply, world⟩
  have same : (reply.edit s.globalContext).domainModel = s.globalContext.domainModel := by
    unfold Reply.edit
    split_ifs
    · obtain ⟨_, _, assigned⟩ := ShortTermMemory.exists_setLastResult_eq { s.globalContext with
        frames := reply.filed.foldl (fun acc entry => acc.insert entry.1 entry.2)
          s.globalContext.frames } reply.lastResult
      rw [assigned]
    · rfl
  simp only [ask, EStateM.run_bind, EStateM.run_get, EStateM.run_set, answered]
  cases reply.answer with
  | ok context => exact same
  | error message => exact same

/-- The second model is as it was, and the text of the first name has been made. -/
structure Watch.Named (platform : Platform) (watch : Watch) (s : World) : Prop where
  guarded : watch.Guarded platform s
  text : ∃ text, (s.heap.uri watch.first).cached = some text

theorem Watch.Named.serves {platform : Platform} {network : Option NetworkRef} {s t : World}
    (named : watch.Named platform s) (served : s.Serves watch.first network t) :
    watch.Named platform t where
  guarded := named.guarded.serves served
  text := named.text.imp fun text cached => served.grows.heap.uris _ text cached

/-- A load of something else keeps the text that has been made. -/
theorem Watch.Named.loads {platform : Platform} {s t : World} (named : watch.Named platform s)
    (loads : s.Loads t) : watch.Named platform t := by
  obtain ⟨text, cached⟩ := named.text
  have kept := loads.heap.uris _ _ cached
  have text : (t.heap.uri watch.first).text = (s.heap.uri watch.first).text := by
    rw [KnowledgeURI.text, KnowledgeURI.text, cached, kept]
    rfl
  exact named.serves ⟨loads.grows _ none, text⟩

/-- The world of a life cycle is as it should be, and the model of the context is not the second
one. -/
def Watch.Separate (watch : Watch) (I : World → Prop) (s : LifeCycle World C P) : Prop :=
  I s.world ∧ ∃ n, s.globalContext.domainModel = some n ∧ n ≠ watch.network

omit [DecidableEq C] [DecidableEq P] in
/-- A program of the memory that is run by the life cycle. -/
theorem Watch.maintains_onWorld {α : Type} {I : World → Prop} {program : EStateM Failure World α}
    (maintains : Maintains I program fun _ => True) :
    Maintains (watch.Separate (C := C) (P := P) I) (Training.onWorld program) fun _ => True :=
  (Training.onPart_onWorld program).maintains (fun _ => I)
    (fun _ separate => separate.1) (fun _ _ separate kept => ⟨kept, separate.2⟩)
    fun _ _ => maintains

theorem run_asFailure {α : Type} (program : KBProgram α) (s : World) :
    (asFailure program).run s =
      match program.run s with
      | .ok a t => .ok a t
      | .error failure t => .error (.runtimeException failure.text) t := rfl

/-- A program as the life cycle sees it. -/
theorem maintains_asFailure {α : Type} {I : World → Prop} {program : KBProgram α}
    (keeps : ∀ s, I s → I (finalState (program.run s))) :
    Maintains I (asFailure program) fun _ => True := by
  intro s inv
  have kept := keeps s inv
  refine ⟨?_, fun _ _ _ => trivial⟩
  rw [run_asFailure]
  cases run : program.run s with
  | ok a t =>
    rw [run] at kept
    exact kept
  | error failure t =>
    rw [run] at kept
    exact kept

/-- Loading the solved issues leaves the second model alone. -/
theorem Watch.maintains_solutions (process : Process) (watch : Watch) :
    Maintains (watch.Named process.platform) (asFailure process.solutions) fun _ => True := by
  refine maintains_asFailure fun s named => named.loads (World.Extended.loads ?_)
  have maintains : Maintains s.Extended process.solutions fun _ => True :=
    (World.Extended.maintains_solutions process.stack process.solutionDefaults).bind
      fun _ _ => maintains_pure trivial
  exact maintains.keeps (.refl s)

omit [DecidableEq C] [DecidableEq P] in
/-- Loading the models for a training, when the first name does not lead to the second network. -/
theorem Watch.run_initializeGlobalContext {s : LifeCycle World C P}
    (guarded : watch.Guarded process.platform s.world)
    (apart : watch.Apart process.platform process.stack process.domainModelConceptNetwork s.world)
    (inputResource : Resource) :
    let run := (Training.initializeGlobalContext process.memory
      { inputResource, domainName := watch.first } : Program World C P Unit).run s
    (∀ e m, run = .error e m → watch.Guarded process.platform m.world) ∧
      ∀ a m, run = .ok a m → watch.Separate (watch.Guarded process.platform) m := by
  have loading : Respects (World.Serves watch.first _) (process.domainModel watch.first) :=
    respects_someModel _ _ _ _ _
  have asked : Maintains (watch.Separate (C := C) (P := P) (watch.Named process.platform))
      (Training.onWorld (asFailure (process.domainModel watch.first))) fun _ => True :=
    Watch.maintains_onWorld (maintains_asFailure fun s named => named.serves (loading s))
  intro run
  have first : run = (Training.onWorld (asFailure (process.domainModel watch.first)) >>= _).run
    { s with globalContext := ContextHelper.ofLastResult [inputResource] inputResource } := rfl
  rw [EStateM.run_bind, Training.run_onWorld, run_asFailure] at first
  have served := guarded.serves (loading s.world)
  cases loaded : (process.domainModel watch.first).run s.world with
  | error failure world =>
    rw [loaded] at first served
    rw [first]
    refine ⟨fun e m same => ?_, fun _ _ same => nomatch same⟩
    cases same
    exact served
  | ok n world =>
    rw [loaded] at first served
    obtain ⟨s', loading'⟩ := exists_run_loadModel loaded
    have named : watch.Named process.platform world :=
      ⟨served, _, (run_loadModel_eq_ok loading').2.1⟩
    have separate : watch.Separate (watch.Named process.platform) (finalState run) := by
      rw [first]
      refine holds_bind (fun _ _ none => nomatch none) fun _ _ assigned => ?_
      cases assigned
      -- from here on the context has a model, which is not the second one
      have start : watch.Separate (watch.Named process.platform) ({
          globalContext := { (ContextHelper.ofLastResult [inputResource] inputResource :
            ShortTermMemory C P) with domainModel := some n }
          world, record := s.record } : LifeCycle World C P) :=
        ⟨named, n, rfl, guarded.ne_of_run_someModel apart loaded⟩
      refine Maintains.keeps (Q := fun _ => True) ?_ start
      have assign : ∀ f : ShortTermMemory C P → ShortTermMemory C P,
          (∀ ctx, (f ctx).domainModel = ctx.domainModel) →
          Maintains (watch.Separate (watch.Named process.platform)) (modify fun s =>
            { s with globalContext := f s.globalContext } : Program World C P PUnit)
            fun _ => True :=
        fun f same => maintains_modify fun s separate => by
          obtain ⟨named, n, model, other⟩ := separate
          exact ⟨named, n, (same s.globalContext).trans model, other⟩
      refine asked.bind fun simulationModel _ => ?_
      refine (assign (fun ctx => { ctx with simulationModel := some simulationModel })
        fun _ => rfl).bind fun _ _ => ?_
      refine asked.bind fun reformulationModel _ => ?_
      refine (assign (fun ctx => { ctx with reformulationModel := some reformulationModel })
        fun _ => rfl).bind fun _ _ => ?_
      refine (Watch.maintains_onWorld (watch.maintains_solutions process)).bind
        fun solutions _ => ?_
      exact assign (fun ctx => { ctx with solutions }) fun _ => rfl
    constructor
    · intro e m same
      rw [same] at separate
      exact separate.1.guarded
    · intro a m same
      rw [same] at separate
      exact ⟨separate.1.guarded, separate.2⟩

omit [DecidableEq C] [DecidableEq P] in
/-- The commit of a training assigns to the model of the context. -/
theorem Watch.maintains_commitTraining (inputResource : Resource) :
    Maintains (watch.Separate (C := C) (P := P) (watch.Guarded process.platform))
      (Training.commitTraining process.memory { inputResource, domainName := watch.first })
      fun _ => True := by
  refine maintains_get_bind fun s separate => ?_
  split
  · split
    · rename_i r _ _ model present
      obtain ⟨guarded, n, same, other⟩ := separate
      rw [present] at same
      cases same
      refine (maintains_set ⟨guarded.assignNetwork other _, model, present, other⟩).bind
        fun _ _ => ?_
      have saving : Maintains (watch.Guarded process.platform)
          (asFailure (LongTermMemory.saveModel process.platform process.stack watch.first model))
          fun _ => True :=
        maintains_asFailure fun s guarded => guarded.serves (respects_saveModel _ _ _ _ s)
      exact (Watch.maintains_onWorld saving).bind fun _ _ =>
        maintains_get_bind fun _ _ => maintains_pure trivial
    · exact maintains_pure trivial
  · exact maintains_pure trivial
  · exact maintains_throw _

/-- A training of the first model leaves the second one alone, when the calls that it makes do. -/
theorem Watch.Guarded.train {s : World} (guarded : watch.Guarded process.platform s)
    (apart : watch.Apart process.platform process.stack process.domainModelConceptNetwork s)
    {env : Environment World C P} {depth rounds : ℕ} {globalContext : ShortTermMemory C P}
    {inputResource : Resource}
    (calls : ∀ call ∈ process.callsOfTraining env depth rounds
      { inputResource, domainName := watch.first } { globalContext, world := s },
      env.Keeps (watch.Guarded process.platform) call) :
    watch.Guarded process.platform
      (finalState ((Training.applyTraining process.memory env depth rounds
        { inputResource, domainName := watch.first }).run { globalContext, world := s })).world := by
  obtain ⟨stopped, initialized⟩ := Watch.run_initializeGlobalContext (C := C) (P := P)
    (s := { globalContext, world := s }) guarded apart inputResource
  let spared (t : LifeCycle World C P) : Prop := watch.Guarded process.platform t.world
  -- the goals start with the models that have been loaded, and make the calls
  have goals : ∀ a m, (Training.initializeGlobalContext process.memory
      { inputResource, domainName := watch.first } : Program World C P Unit).run
        { globalContext, world := s } = .ok a m →
      spared (finalState ((runGoals env depth rounds KBAdapter.trainingWorkflow).run m)) := by
    intro a m run
    rw [Process.callsOfTraining, run] at calls
    exact holds_runGoals env (initialized a m run).1 calls
  refine holds_bind (P := spared)
    (fun e m run => ?_) fun _ m run => ?_
  · -- the work-flow ends with an exception
    have kept : spared (finalState ((Training.workflow process.memory env depth rounds
        { inputResource, domainName := watch.first }).run { globalContext, world := s })) :=
      holds_bind (P := spared) stopped goals
    rwa [run] at kept
  · obtain ⟨_, m', loaded, ran⟩ := run_bind_eq_ok_iff.mp run
    obtain ⟨-, n, model, other⟩ := initialized _ m' loaded
    have kept := goals _ m' loaded
    have same := sameDomainModel_runGoals env depth rounds KBAdapter.trainingWorkflow m'
    rw [ran] at kept same
    have separate : watch.Separate (watch.Guarded process.platform) m :=
      ⟨kept, n, same.trans model, other⟩
    exact ((Watch.maintains_commitTraining inputResource).keeps separate).1

end Training

section Runs

variable {C P : Type} [DecidableEq C] [DecidableEq P] {process : Process} {watch : Watch}

/-- An operation that is safe leaves the second model alone. -/
theorem Watch.Guarded.perform {s : World} (guarded : watch.Guarded process.platform s)
    (operation : Operation C P) (safe : operation.Safe process watch s) :
    watch.Guarded process.platform (operation.perform process watch.first s) := by
  cases operation with
  | load => exact guarded.serves (respects_someModel _ _ _ _ _ s)
  | merge updatedConcept => exact guarded.merge safe.1 updatedConcept safe.2
  | saveModel model => exact guarded.serves (respects_saveModel _ _ _ model s)
  | train env depth rounds globalContext inputResource =>
    exact guarded.train safe.1 safe.2

/-- So do sequences of such operations. -/
theorem Watch.Guarded.perform_all {s : World} (guarded : watch.Guarded process.platform s)
    (operations : List (Operation C P)) (safe : Operation.AllSafe process watch operations s) :
    watch.Guarded process.platform
      (operations.foldl (fun s operation => operation.perform process watch.first s) s) := by
  induction operations generalizing s with
  | nil => exact guarded
  | cons operation rest ih => exact ih (guarded.perform operation safe.1) safe.2

/-- A model that is as it was is found under its name, at once. -/
theorem Watch.Guarded.run_domainModel {s : World} (guarded : watch.Guarded process.platform s)
    (calls : process.calls ≠ 0) :
    (process.domainModel watch.second).run s = .ok watch.network s := by
  obtain ⟨calls, same⟩ := Nat.exists_eq_succ_of_ne_zero calls
  have asked : (uriText process.platform watch.second).run s = .ok watch.key s := by
    simp only [uriText, EStateM.run_bind, EStateM.run_get, guarded.named]
    rfl
  -- whichever relationship with the key is enumerated first, it ends at the node
  have found : s.kb.loadChild process.platform (some KB.rootId) watch.key defaultLinkName =
      some (s.kb.node watch.id) := by
    rw [KB.loadChild, KB.getNodeById_of_hasNode s.kb.hasRoot]
    have mem {rel : Relationship} := (process.platform.order_perm
      (s.kb.relationshipsOf KB.rootId defaultLinkName)).mem_iff (a := rel)
    cases first : (process.platform.order (s.kb.relationshipsOf KB.rootId defaultLinkName)).find?
        fun rel => rel.key = watch.key with
    | none =>
      obtain ⟨rel, member, key⟩ := guarded.stored
      exact absurd (decide_eq_true key) (List.find?_eq_none.mp first rel (mem.mpr member))
    | some rel =>
      have key := List.find?_some first
      have last := guarded.unique rel (mem.mp (List.mem_of_find?_eq_some first))
        (of_decide_eq_true key)
      rw [Option.map_some, last]
  have loading : (loadModel process.platform process.stack watch.second).run s =
      .ok watch.network s := by
    rw [loadModel, EStateM.run_bind, asked]
    simp only [ConceptNetwork.load, EStateM.run_bind, EStateM.run_get, found,
      KBMap.run_loadFromCache guarded.accepted, KB.id_node, guarded.loaded]
    rfl
  rw [Process.domainModel, same, LongTermMemory.someModel, run_orOnFailure, loading]

/-- The watch over the second name in a state, when it leads to the given network. -/
def Process.watchOver (process : Process) (first second : UriRef) (network : NetworkRef) (s : World) :
    Watch where
  first := first
  second := second
  key := (s.heap.uri second).text
  id := ((s.kb.loadChild process.platform (some KB.rootId) (s.heap.uri second).text
    defaultLinkName).map Node.id).getD KB.rootId
  network := network
  heap := s.heap

/-- One node is stored under the name. -/
def World.StoredOnce (s : World) (name : UriRef) : Prop :=
  ∀ rel ∈ s.kb.relationshipsOf KB.rootId defaultLinkName,
    ∀ rel' ∈ s.kb.relationshipsOf KB.rootId defaultLinkName,
      rel.key = (s.heap.uri name).text → rel'.key = (s.heap.uri name).text →
        rel.endNode = rel'.endNode

/-- The network, its nodes and its links are objects of the heap. -/
structure Heap.Holds (heap : Heap) (n : NetworkRef) : Prop where
  network : n < heap.networks.size
  nodes : ∀ c ∈ (heap.network n).nodes, c < heap.concepts.size
  links : ∀ l ∈ (heap.network n).links, l < heap.links.size

/-- `domainModel` returns the network for the name, with the nodes and links it had. -/
def Process.Returns (process : Process) (name : UriRef) (network : NetworkRef) (before : Heap)
    (s : World) : Prop :=
  ∃ t, (process.domainModel name).run s = .ok network t ∧
    (t.heap.network network).nodes = (before.network network).nodes ∧
    (t.heap.network network).links = (before.network network).links ∧
    (∀ c ∈ (before.network network).nodes, t.heap.concept c = before.concept c) ∧
    ∀ l ∈ (before.network network).links, t.heap.link l = before.link l

/-- A model that `domainModel` has returned is guarded. -/
theorem Process.guarded_watchOver {first second : UriRef} {s₀ s : World} {n : NetworkRef}
    (loaded : (process.domainModel second).run s₀ = .ok n s)
    (different : (s.heap.uri first).text ≠ (s.heap.uri second).text)
    (once : s.StoredOnce second) (held : s.heap.Holds n) :
    (process.watchOver first second n s).Guarded process.platform s := by
  obtain ⟨s', loading⟩ := exists_run_loadModel loaded
  obtain ⟨kb, cached, rel, member, key, accepted, found, -⟩ := run_loadModel_eq_ok loading
  have text : (s.heap.uri second).text = (s'.heap.uri second).text := by
    rw [KnowledgeURI.text, cached]
    rfl
  rw [← kb] at member accepted
  rw [← text] at key cached
  -- all relationships with the key end at the node of the watch
  have id : (process.watchOver first second n s).id = rel.endNode := by
    unfold Process.watchOver
    rw [KB.loadChild, KB.getNodeById_of_hasNode s.kb.hasRoot]
    cases first : (process.platform.order (s.kb.relationshipsOf KB.rootId defaultLinkName)).find?
        fun rel => rel.key = (s.heap.uri second).text with
    | none =>
      have present := (process.platform.order_perm _).mem_iff.mpr member
      exact absurd (decide_eq_true key) (List.find?_eq_none.mp first rel present)
    | some rel' =>
      have key' := List.find?_some first
      have member' := (process.platform.order_perm _).mem_iff.mp (List.mem_of_find?_eq_some first)
      have same := once rel' member' rel member (of_decide_eq_true key') key
      rw [Option.map_some, Option.map_some, Option.getD_some, KB.id_node, same]
  constructor
  case stored => exact ⟨rel, member, key⟩
  case unique =>
    intro rel' member' key'
    rw [id]
    exact once rel' member' rel member key' key
  case accepted =>
    rw [id]
    exact accepted
  case loaded =>
    rw [id]
    exact found
  case allocated => exact held.network
  case network => rfl
  case concepts => exact fun c member => ⟨held.nodes c member, rfl⟩
  case conceptLinks => exact fun l member => ⟨held.links l member, rfl⟩
  case named => exact cached
  case different => exact different

/-- A second model has been returned, under a name of another text, of which one node is stored.
After any operations on the first name that are safe, it is returned with the nodes and
links that it had. -/
theorem domainModel_isolated (process : Process) (first second : UriRef) (s₀ s : World)
    (n : NetworkRef) (loaded : (process.domainModel second).run s₀ = .ok n s)
    (different : (s.heap.uri first).text ≠ (s.heap.uri second).text)
    (once : s.StoredOnce second) (held : s.heap.Holds n) (operations : List (Operation C P))
    (safe : Operation.AllSafe process (process.watchOver first second n s) operations s) :
    process.Returns second n s.heap
      (operations.foldl (fun s operation => operation.perform process first s) s) := by
  have guarded := process.guarded_watchOver loaded different once held
  have kept := guarded.perform_all operations safe
  have calls : process.calls ≠ 0 := by
    intro none
    rw [Process.domainModel, none] at loaded
    exact nomatch loaded
  refine ⟨_, kept.run_domainModel calls, congrArg ConceptNetwork.nodes kept.network,
    congrArg ConceptNetwork.links kept.network, fun c member => (kept.concepts c member).2,
    fun l member => (kept.conceptLinks l member).2⟩

end Runs

/-! ### Two domains

The default network has a concept `browser`. A concept of the same name with a generalisation
is there to replace it. No model is stored. -/

/-- The default network, and the names of two domains. -/
def twoDomains : World where
  heap :=
    { uris := .ofList [{ name := "default" }, { name := "browser" }, { name := "browser" },
        { name := "software" }, { name := "first" }, { name := "second" }]
      conceptLines := .ofList [{}, { frames := .ofList [(3, 2)] }]
      phraseLines := .ofList [{}]
      concepts := .ofList
        [{ generalisations := some 0, specialisations := some 0, phrases := some 0, uri := 1 },
          { generalisations := some 1, specialisations := some 0, phrases := some 0, uri := 2 },
          { generalisations := some 0, specialisations := some 0, phrases := some 0, uri := 3 }]
      networks := .ofList [{ nodes := [0] }, { nodes := [2] }] }
  kb := .onlyRoot
  id2object _ := none

/-- The process with that default network. -/
def twoDomainsProcess : Process where
  platform := .plain
  stack := 3
  domainModelConceptNetwork := 0
  calls := 2
  className _ := none
  solutionDefaults :=
    { installFirefoxHowTo := { parameters := [], uri := 0, probability := {} }
      reinstallIEHowTo := { parameters := [], uri := 0, probability := {} }
      pleaseInstallFFSimulation := 0
      iHaveProblemWithIE8Simulation := 0
      iHaveProblemWithIE8Reformulation := 0 }

/-- The state in which the second domain has been asked for. -/
def secondAsked : World := finalState ((twoDomainsProcess.domainModel 5).run twoDomains)

theorem run_secondAsked : (twoDomainsProcess.domainModel 5).run twoDomains = .ok 0 secondAsked :=
  eq_ok_of_returned (by decide +kernel)

theorem storedOnce_secondAsked : secondAsked.StoredOnce 5 := by
  unfold World.StoredOnce
  decide +kernel

theorem holds_secondAsked : secondAsked.heap.Holds 0 :=
  ⟨by decide +kernel, by decide +kernel, by decide +kernel⟩

/-- Actors that put a concept into the model of the context they are given. -/
def adding : Environment World ConceptRef PhraseRef where
  goalResourceMap := KBAdapter.goalResourceMap
  uriName _ := ""
  getReflectiveCritics _ := .ok KBAdapter.defaultSelfReflectiveCritics
  act _ ctx s := ({ answer := .ok .given }, { s with heap := { s.heap with
    networks := s.heap.networks.modify (ctx.domainModel.getD 1) fun network =>
      { network with nodes := network.nodes ++ [1] } } })

/-- The first domain with a model of its own: it is saved, merged into, loaded and trained. -/
def ownModel : List (Operation ConceptRef PhraseRef) :=
  [.saveModel 1, .merge ⟨1, 2⟩, .load, .train adding 1 2 {} (.conceptNetwork 1 0)]

/-- With a model of its own, the first domain does not reach the second one. -/
theorem ownModel_isolated : twoDomainsProcess.Returns 5 0 secondAsked.heap
    (ownModel.foldl (fun s operation => operation.perform twoDomainsProcess 4 s) secondAsked) := by
  let watch := twoDomainsProcess.watchOver 4 5 0 secondAsked
  have apart : ∀ s, (∀ rel ∈ s.kb.relationshipsOf KB.rootId defaultLinkName,
        rel.key = (s.heap.uri 4).text → s.id2object rel.endNode ≠ some (.network 0)) →
      returned ((loadModel .plain 3 4).run s) = some 1 → watch.Apart .plain 3 0 s :=
    fun s nodes loads => ⟨nodes, Or.inr ⟨1, _, eq_ok_of_returned loads⟩⟩
  refine domainModel_isolated twoDomainsProcess 4 5 twoDomains secondAsked 0 run_secondAsked
    (by decide +kernel) storedOnce_secondAsked holds_secondAsked ownModel ?_
  refine ⟨trivial, ⟨apart _ ?_ ?_, ?_⟩, trivial, ⟨apart _ ?_ ?_, fun call member => ?_⟩, trivial⟩
  · decide +kernel
  · decide +kernel
  · decide +kernel
  · decide +kernel
  · decide +kernel
  · have own : ∀ call ∈ twoDomainsProcess.callsOfTraining adding 1 2
        { inputResource := .conceptNetwork 1 0, domainName := 4 }
        { globalContext := {}
          world := (ownModel.take 3).foldl
            (fun s operation => operation.perform twoDomainsProcess 4 s) secondAsked },
        call.context.domainModel.getD 1 ≠ 0 := by decide +kernel
    exact fun guarded => guarded.assignNetwork (own call member) _

/-- Without one, both domains are the default network, and a merge for one changes the other. -/
theorem default_not_isolated : ¬ ∀ (process : Process) (first second : UriRef) (s₀ s : World)
    (n : NetworkRef) (operations : List (Operation ConceptRef PhraseRef)),
    (process.domainModel second).run s₀ = .ok n s →
    (s.heap.uri first).text ≠ (s.heap.uri second).text →
    s.StoredOnce second → s.heap.Holds n →
    process.Returns second n s.heap
      (operations.foldl (fun s operation => operation.perform process first s) s) := by
  intro isolated
  obtain ⟨t, run, nodes, -⟩ := isolated twoDomainsProcess 4 5 twoDomains secondAsked 0
    [.merge ⟨1, 0⟩] run_secondAsked (by decide +kernel) storedOnce_secondAsked holds_secondAsked
  have changed : (match (twoDomainsProcess.domainModel 5).run
        (Operation.perform (C := ConceptRef) (P := PhraseRef) twoDomainsProcess 4 secondAsked
          (.merge ⟨1, 0⟩)) with
      | .ok n t => (t.heap.network n).nodes
      | .error _ _ => []) = [0, 2] := by decide +kernel
  change (twoDomainsProcess.domainModel 5).run (Operation.perform (C := ConceptRef)
    (P := PhraseRef) twoDomainsProcess 4 secondAsked (.merge ⟨1, 0⟩)) = .ok 0 t at run
  rw [run] at changed
  change (t.heap.network 0).nodes = [0, 2] at changed
  have before : (secondAsked.heap.network 0).nodes = [0] := by decide +kernel
  rw [changed, before] at nodes
  exact nomatch nodes

end ThinkingUnderstanding
