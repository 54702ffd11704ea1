import ThinkingUnderstanding.Math.WriteHistory
import ThinkingUnderstanding.Persistence.Isolation
import ThinkingUnderstanding.Persistence.NetworkContents
import ThinkingUnderstanding.Persistence.StoredSolutions

/-!
# Is the model returned that was saved last?

`saveModel` stores a model as a new node, with a relationship from the reference node under the
text of its name. A relationship that is there under this text is not replaced. `domainModel` reads
the node of the first relationship with the text that is enumerated. So what a fresh process
returns has the contents saved last when all that has been saved under the name had the same
contents, and each of these saves can be restored by itself.

Between the calls of `saveModel` the process may change its models, load others, or be started
anew: whatever it does but write to the knowledge base.

## Main definitions

* `SavedModel` — a call of `saveModel`, with the state in which it was made
* `ModelRun` — the runs of a process that saves models
* `ReturnsLatest` — a fresh process returns the contents that were saved last under a name
* `SavedModel.Restorable`, `SavedApart` — when it does

## Main results

* `ModelRun.kept` — what a run leaves of each save
* `returnsLatest_of_savedApart` — for every run
-/

namespace ThinkingUnderstanding

open Math Semantics

/-- A call of `saveModel`, and the state in which it was made. -/
structure SavedModel where
  modelName : UriRef
  model : NetworkRef
  before : World

namespace SavedModel

variable (platform : Platform) (stack : ℕ) (e : SavedModel)

/-- The text of the name. -/
def key : String := (e.before.heap.uri e.modelName).text

/-- The state once the text has been asked for. -/
def asked : World := finalState ((uriText platform e.modelName).run e.before)

/-- The state after the call. -/
def after : World :=
  finalState ((LongTermMemory.saveModel platform stack e.modelName e.model).run e.before)

/-- The plan of the save. -/
def plan : SavePlan := (e.asked platform).networkPlan stack e.model e.key defaultLinkName

/-- The node as which the model is stored. -/
def node : Node :=
  ⟨(e.plan platform stack).nodeOf (.network e.model),
    (e.asked platform).heap.exported (.network e.model)⟩

/-- The relationship by which it is found. -/
def relationship : Relationship :=
  ⟨KB.rootId, (e.node platform stack).id, defaultLinkName, e.key⟩

/-- The name is accepted, what is saved can be told apart and read, and the model is one that is
restored. -/
structure Restorable : Prop where
  accepted : (e.before.heap.uri e.modelName).Accepted platform
  savable : ∃ objects, NetworkSavable stack (e.asked platform) e.model objects
  storable : NetworkStorable platform stack (e.asked platform) e.model e.key defaultLinkName
  restorable : NetworkRestorable stack (e.asked platform) e.model (some KB.rootId) e.key
    defaultLinkName

end SavedModel

section Runs

variable (platform : Platform) (stack : ℕ) (start : World)

/-- The runs of a process that saves models, with the calls it has made. What it does between the
calls does not write to the knowledge base. -/
inductive ModelRun : List SavedModel → World → Prop
  | start : ModelRun [] start
  | save {saved : List SavedModel} (e : SavedModel) (run : ModelRun saved e.before) :
      ModelRun (saved ++ [e]) (e.after platform stack)
  | change {saved : List SavedModel} {s t : World} (run : ModelRun saved s) (kb : t.kb = s.kb) :
      ModelRun saved t

variable {platform stack start}

/-- After a change, a save. -/
theorem ModelRun.saveFrom {saved : List SavedModel} {s : World}
    (run : ModelRun platform stack start saved s) {e : SavedModel} (kb : e.before.kb = s.kb) :
    ModelRun platform stack start (saved ++ [e]) (e.after platform stack) :=
  .save e (run.change kb)

variable (platform stack) (saved : List SavedModel) (t : World)

/-- In a fresh process with the knowledge base, `domainModel` returns a model with the contents that
were saved last under the name, in whatever order relationships are enumerated. -/
def ReturnsLatest : Prop :=
  ∀ key e, latest (saved.map fun e => (e.key, e)) key = some e →
    ∀ order order_perm w w₁ name, FreshProcess t w → (uriText platform name).run w = .ok key w₁ →
      ∀ domainModelConceptNetwork calls, ∃ n w',
        (LongTermMemory.someModel (platform.withOrder order order_perm) stack
          domainModelConceptNetwork (calls + 1) name).run w = .ok n w' ∧
        SameContents e.before.heap w'.heap e.model n

end Runs

/-- Under the names there was nothing at first, and what has been saved under one of them had the
same contents each time. -/
structure SavedApart (kb : KB) (saved : List SavedModel) : Prop where
  unused : ∀ e ∈ saved, ∀ rel ∈ kb.relationshipsOf KB.rootId defaultLinkName, rel.key ≠ e.key
  same : ∀ e ∈ saved, ∀ e' ∈ saved, e'.key = e.key →
    SameContents e.before.heap e'.before.heap e.model e'.model

variable {platform : Platform} {stack : ℕ}

/-! ### One save -/

/-- A save whose relationship to the parent is of another type is not seen by what reads the old
nodes. -/
theorem SavePlan.Stored.readsAs {plan : SavePlan} {parent : Option ℕ} {root : Child} {kb : KB}
    (stored : plan.Stored (plan.kb.getNodeById parent) root kb) {types : List String}
    (other : root.linkType ∉ types) : kb.ReadsAs plan.kb types where
  hasNode id present := by
    rw [KB.HasNode, stored.nodes, List.map_append]
    exact List.mem_append_left _ present
  node id present := by
    obtain ⟨node, there, same⟩ := List.mem_map.mp present
    have found : (plan.kb.nodes.find? fun node => node.id = id).isSome :=
      List.find?_isSome.mpr ⟨node, there, decide_eq_true same⟩
    rw [KB.node, KB.node, stored.nodes, List.find?_append, Option.or_of_isSome found]
  relationshipsOf id type present member := by
    obtain ⟨added, relationships, perm⟩ := stored.relationships
    have none : added.filter (fun rel => (rel.startNode = id ∨ rel.endNode = id) ∧
        rel.type = type) = [] := by
      refine List.filter_eq_nil_iff.mpr fun rel new here => ?_
      obtain ⟨touches, typed⟩ := of_decide_eq_true here
      rcases List.mem_cons.mp (perm.mem_iff.mp new) with rfl | later
      · have same : root.linkType = type := typed
        exact other (same ▸ member)
      · -- the other relationships join new nodes
        obtain ⟨e, -, edges⟩ := List.mem_flatMap.mp later
        obtain ⟨child, -, rfl⟩ := List.mem_map.mp edges
        rcases touches with rfl | rfl
        · exact plan.not_hasNode_nodeOf e.resource present
        · exact plan.not_hasNode_nodeOf child.resource present
    rw [KB.relationshipsOf_append relationships, none, List.append_nil]

namespace SavedModel

/-- What a save leaves. -/
structure Kept (platform : Platform) (stack : ℕ) (e : SavedModel) : Prop where
  asked : World.Asked e.modelName e.before (e.asked platform)
  followed : (e.plan platform stack).Followed platform (e.plan platform stack).arrivals
    (e.after platform stack)
  stored : (e.plan platform stack).Stored ((e.asked platform).kb.getNodeById (some KB.rootId))
    (rootCall (.network e.model) e.key defaultLinkName) (e.after platform stack).kb

variable {e : SavedModel}

/-- Where it is restorable, a model is saved as planned. -/
theorem Restorable.kept (restorable : e.Restorable platform stack) : e.Kept platform stack := by
  obtain ⟨m, run, asked⟩ := run_uriText_of_accepted restorable.accepted
  have here : e.asked platform = m := by rw [SavedModel.asked, run, finalState_ok]
  obtain ⟨objects, savable⟩ := restorable.savable
  obtain ⟨t, save, followed, stored⟩ : ∃ t, (saveAnew platform stack (.network e.model)
      (some KB.rootId) e.key defaultLinkName).run (e.asked platform) = .ok () t ∧ _ ∧ _ :=
    restorable.storable.exists_run savable restorable.restorable.unlinked
  have after : e.after platform stack = t := by
    have whole : (LongTermMemory.saveModel platform stack e.modelName e.model).run e.before =
        .ok () t := by
      rw [here] at save
      exact run_bind_eq_ok_iff.mpr ⟨_, _, run, save⟩
    rw [SavedModel.after, whole, finalState_ok]
  rw [← here] at asked
  rw [← after] at followed stored
  exact ⟨asked, followed, stored⟩

namespace Kept

variable (kept : e.Kept platform stack)
include kept

/-- What was there is read as before. -/
theorem readsAs : (e.after platform stack).kb.ReadsAs e.before.kb readTypes := by
  have other : defaultLinkName ∉ readTypes := by decide
  rw [← kept.asked.kb]
  exact kept.stored.readsAs other

/-- There is one model more below the reference node. -/
theorem mem_relationshipsOf {rel : Relationship} :
    rel ∈ (e.after platform stack).kb.relationshipsOf KB.rootId defaultLinkName ↔
      rel ∈ e.before.kb.relationshipsOf KB.rootId defaultLinkName ∨
        rel = e.relationship platform stack := by
  have root : ∀ kb : KB, (kb.getNodeById (some KB.rootId) : ℕ) = KB.rootId := fun kb => by
    rw [KB.getNodeById_of_hasNode kb.hasRoot]
  have same : (e.plan platform stack).relationship
      ((e.plan platform stack).kb.getNodeById (some KB.rootId))
      (rootCall (.network e.model) e.key defaultLinkName) = e.relationship platform stack := by
    rw [root]
    rfl
  have listed : rel ∈ (e.after platform stack).kb.relationshipsOf
      ((e.after platform stack).kb.getNodeById (some KB.rootId)) defaultLinkName ↔
        rel ∈ (e.asked platform).kb.relationshipsOf
          ((e.asked platform).kb.getNodeById (some KB.rootId)) defaultLinkName ∨ _ :=
    kept.stored.mem_relationshipsOf_parent fun id here => by
      cases here
      exact (e.asked platform).kb.hasRoot
  rw [same, root, root, kept.asked.kb] at listed
  rw [listed]
  refine or_congr_right (and_iff_left_of_imp ?_)
  rintro rfl
  rfl

end Kept

end SavedModel

/-! ### Runs -/

section Runs

variable {start t : World} {saved : List SavedModel}

/-- What a run leaves of the saves that it has made: the nodes of each one are read as after it, and
below the reference node there is, besides what was there before, a relationship for each. -/
structure RunKept (platform : Platform) (stack : ℕ) (start : World) (saved : List SavedModel)
    (t : World) : Prop where
  readsAs : ∀ e ∈ saved, t.kb.ReadsAs (e.after platform stack).kb readTypes
  models : ∀ rel, rel ∈ t.kb.relationshipsOf KB.rootId defaultLinkName ↔
    rel ∈ start.kb.relationshipsOf KB.rootId defaultLinkName ∨
      ∃ e ∈ saved, rel = e.relationship platform stack

/-- In a run, whose saves can all be made, they are kept. -/
theorem ModelRun.kept (run : ModelRun platform stack start saved t)
    (restorable : ∀ e ∈ saved, e.Restorable platform stack) :
    RunKept platform stack start saved t := by
  induction run with
  | start => exact ⟨List.forall_mem_nil _, by simp⟩
  | change _ kb ih =>
    obtain ⟨readsAs, models⟩ := ih restorable
    exact ⟨fun e member => kb ▸ readsAs e member, fun rel => kb ▸ models rel⟩
  | save e _ ih =>
    obtain ⟨readsAs, models⟩ := ih fun e' member => restorable e' (List.mem_append_left _ member)
    have kept := (restorable e (List.mem_append_right _ List.mem_cons_self)).kept
    constructor
    case readsAs =>
      intro e' member
      rcases List.mem_append.mp member with old | new
      · exact kept.readsAs.trans (readsAs e' old)
      · obtain rfl := List.mem_singleton.mp new
        exact .refl _ _
    case models =>
      intro rel
      rw [kept.mem_relationshipsOf, models]
      simp only [List.mem_append, List.mem_singleton, or_and_right, exists_or, exists_eq_left,
        or_assoc]

/-- What is found under a name at the end of a run, in whatever order relationships are enumerated,
is a model that has been saved under it. -/
theorem RunKept.exists_loadChild (platform' : Platform)
    (kept : RunKept platform stack start saved t)
    (restorable : ∀ e ∈ saved, e.Restorable platform stack) (apart : SavedApart start.kb saved)
    {e : SavedModel} (member : e ∈ saved) :
    ∃ e' ∈ saved, e'.key = e.key ∧
      t.kb.loadChild platform' (some KB.rootId) e.key defaultLinkName =
        some (e'.node platform stack) := by
  have mem_order : ∀ rel, rel ∈ platform'.order (t.kb.relationshipsOf KB.rootId defaultLinkName) ↔
      rel ∈ t.kb.relationshipsOf KB.rootId defaultLinkName := fun rel =>
    (platform'.order_perm _).mem_iff
  rw [KB.loadChild, KB.getNodeById_of_hasNode t.kb.hasRoot]
  cases found : (platform'.order (t.kb.relationshipsOf KB.rootId defaultLinkName)).find?
      fun rel => rel.key = e.key with
  | none =>
    have present := (mem_order _).mpr ((kept.models _).mpr (Or.inr ⟨e, member, rfl⟩))
    exact absurd (decide_eq_true rfl) (List.find?_eq_none.mp found _ present)
  | some rel =>
    have passes := List.find?_some found
    have same : rel.key = e.key := of_decide_eq_true passes
    have listed := (mem_order rel).mp (List.mem_of_find?_eq_some found)
    rcases (kept.models rel).mp listed with old | ⟨e', member', rfl⟩
    · -- there was nothing under the name before
      exact absurd same (apart.unused e member rel old)
    · refine ⟨e', member', same, ?_⟩
      have saves := (restorable e' member').kept
      obtain ⟨objects, savable⟩ := (restorable e' member').savable
      have inside := (restorable e' member').storable.mem_resources savable
        (restorable e' member').restorable.unlinked .refl
      have node : (e'.after platform stack).kb.node
          ((e'.plan platform stack).nodeOf (.network e'.model)) = _ := saves.stored.node inside
      have read := (kept.readsAs e' member').node _ (saves.stored.hasNode inside)
      exact congrArg some (read.trans node)

/-- The text of a URI that is returned has been asked for. -/
theorem asked_of_run_uriText {platform : Platform} {u : UriRef} {text : String} {w w₁ : World}
    (run : (uriText platform u).run w = .ok text w₁) : World.Asked u w w₁ := by
  by_cases accepted : (w.heap.uri u).Accepted platform
  · obtain ⟨_, run', asked⟩ := run_uriText_of_accepted accepted
    cases run'.symm.trans run
    exact asked
  · obtain ⟨_, run'⟩ := run_uriText_of_not_accepted accepted
    cases run'.symm.trans run

/-- A model that has been saved in a run can be made of its node at the end of it, in a process that
has loaded nothing, and has the contents that were saved. -/
theorem RunKept.exists_run_loadAt (kept : RunKept platform stack start saved t) {e : SavedModel}
    (member : e ∈ saved) (restorable : e.Restorable platform stack)
    (order : List Relationship → List Relationship) (order_perm : ∀ rels, (order rels).Perm rels)
    {w : World} (fresh : FreshProcess t w) :
    ∃ n w', (ConceptNetwork.loadAt (platform.withOrder order order_perm) stack
        (e.node platform stack)).run w = .ok n w' ∧
      SameContents e.before.heap w'.heap e.model n := by
  have saves := restorable.kept
  have storable : NetworkStorable (platform.withOrder order order_perm) stack (e.asked platform)
      e.model e.key defaultLinkName :=
    { restorable.storable with }
  have followed : (e.plan platform stack).Followed (platform.withOrder order order_perm)
      (e.plan platform stack).arrivals (e.after platform stack) :=
    { saves.followed with }
  obtain ⟨objects, savable⟩ := restorable.savable
  have unlinked := restorable.restorable.unlinked
  -- it can be loaded as if nothing had been saved afterwards
  have fresh' : FreshProcess (e.after platform stack) (w.withKB (e.after platform stack).kb) :=
    ⟨rfl, fresh.empty⟩
  obtain ⟨n, w', run⟩ : ∃ n w', (ConceptNetwork.loadAt (platform.withOrder order order_perm) stack
      (e.node platform stack)).run (w.withKB (e.after platform stack).kb) = .ok n w' :=
    restorable.restorable.exists_run_loadAt storable savable saves.stored fresh'.kb fresh'.empty
  have loaded := storable.loaded_of_run savable unlinked saves.stored fresh' run
  have contents := loaded.sameContents storable savable followed saves.stored
    restorable.restorable
  -- and what has been saved afterwards makes no difference
  have present := saves.stored.hasNode (storable.mem_resources savable unlinked .refl)
  have exchanged : Exchanged (e.after platform stack).kb t.kb
      (ConceptNetwork.loadAt (platform.withOrder order order_perm) stack (e.node platform stack)) :=
    exchanged_loadAt (kept.readsAs e member) (List.Subset.refl _) stack present
  have same := exchanged.run_change _ fresh'.kb
  have back : (w.withKB (e.after platform stack).kb).withKB t.kb = w := by
    rw [← fresh.kb]
    rfl
  rw [back, run] at same
  refine ⟨n, w'.withKB t.kb, same, SameContents.trans ?_ contents⟩
  exact .of_sameGraph saves.asked.graph e.model

end Runs

/-- In every run, at the end of which what has been saved under a name had the same contents each
time, where there had been nothing before, and where each save can be restored by itself, the
contents are returned that were saved last: for every platform, every stack and every state at the
start. -/
theorem returnsLatest_of_savedApart (platform : Platform) (stack : ℕ) {start t : World}
    {saved : List SavedModel} (run : ModelRun platform stack start saved t)
    (restorable : ∀ e ∈ saved, e.Restorable platform stack) (apart : SavedApart start.kb saved) :
    ReturnsLatest platform stack saved t := by
  intro key e last order order_perm w w₁ name fresh text domainModelConceptNetwork calls
  obtain ⟨e, member, same⟩ := List.mem_map.mp (mem_of_latest last)
  cases same
  have kept := run.kept restorable
  obtain ⟨e', member', sameKey, found⟩ := kept.exists_loadChild
    (platform.withOrder order order_perm) restorable apart member
  have asked := asked_of_run_uriText text
  have fresh₁ : FreshProcess t w₁ :=
    ⟨asked.kb.trans fresh.kb, fun id => by rw [asked.id2object, fresh.empty]⟩
  obtain ⟨n, w', loads, contents⟩ := kept.exists_run_loadAt member' (restorable e' member') order
    order_perm fresh₁
  have loaded : (loadModel (platform.withOrder order order_perm) stack name).run w = .ok n w' := by
    refine run_bind_eq_ok_iff.mpr ⟨_, _, text, ?_⟩
    rw [← fresh₁.kb] at found
    rw [run_loadNetwork stack found]
    exact loads
  refine ⟨n, w', ?_, (apart.same e member e' member' sameKey).trans contents⟩
  rw [LongTermMemory.someModel, run_orOnFailure, loaded]

/-! ### Two models -/

section Example

/-- Where every text is accepted, it can be decided whether a model of given concepts without links
is restorable. -/
theorem SavedModel.restorable_of_concepts {stack : ℕ} {e : SavedModel} (concepts : List ConceptRef)
    (deep : concepts.length + 1 < stack)
    (saves : ∀ r ∈ ResourceRef.network e.model :: concepts.map .concept,
      ∀ child ∈ (e.asked .plain).heap.children r,
        child.resource ∈ ResourceRef.network e.model :: concepts.map .concept)
    (closed : ∀ r ∈ ResourceRef.network e.model :: concepts.map .concept,
      ∀ r' ∈ (e.asked .plain).heap.readChildren r,
        r' ∈ ResourceRef.network e.model :: concepts.map .concept)
    (valid : ∀ r ∈ (e.plan .plain stack).resources, (e.asked .plain).heap.uid r = "" ∨
      ∃ n ∈ List.range 9, (e.asked .plain).heap.uid r = toString n)
    (apart : (e.plan .plain stack).AllApart)
    (keys : ∀ r ∈ ResourceRef.network e.model :: concepts.map .concept,
      ∀ child ∈ (e.asked .plain).heap.children r,
        (KnowledgeURI.ofRaw ((e.plan .plain stack).relationship 0 child).key).isSome)
    (links : ((e.asked .plain).heap.network e.model).links = [])
    (nodes : (e.plan .plain stack).Unambiguous KB.rootId
      (rootCall (.network e.model) e.key defaultLinkName) (.network e.model) nodesLinkName
        (((e.asked .plain).heap.network e.model).nodes.map .concept))
    (contents : ∀ c ∈ concepts, ((e.asked .plain).heap.concept c).content.value =
      ((e.asked .plain).heap.concept c).content.name)
    (generalisations : ∀ c ∈ concepts, (e.plan .plain stack).Unambiguous KB.rootId
      (rootCall (.network e.model) e.key defaultLinkName) (.concept c) generalisationLinkName
        (((e.asked .plain).heap.generalisations c).values.map .concept))
    (specialisations : ∀ c ∈ concepts, (e.plan .plain stack).Unambiguous KB.rootId
      (rootCall (.network e.model) e.key defaultLinkName) (.concept c) specialisationLinkName
        (((e.asked .plain).heap.specialisations c).values.map .concept)) :
    e.Restorable .plain stack := by
  have reads : ∀ {r}, (e.asked .plain).heap.ReadWith e.model r →
      r ∈ ResourceRef.network e.model :: concepts.map .concept := fun read =>
    read.mem List.mem_cons_self closed
  have among : ∀ c, (e.asked .plain).heap.ReadWith e.model (.concept c) → c ∈ concepts := by
    intro c read
    simpa using reads read
  have root : ((e.asked .plain).kb.getNodeById (some KB.rootId) : ℕ) = KB.rootId := by
    rw [KB.getNodeById_of_hasNode (e.asked .plain).kb.hasRoot]
  have savable : NetworkSavable stack (e.asked .plain) e.model
      (.network e.model :: concepts.map .concept) :=
    ⟨saves, List.mem_cons_self, by simpa using deep⟩
  refine ⟨fun _ => rfl, ⟨_, savable⟩, ?_, ?_⟩
  · refine ⟨fun r member => ?_, apart, fun _ _ _ _ _ _ => rfl, fun _ _ => rfl, ?_⟩
    · refine (valid r member).imp id ?_
      rintro ⟨n, -, same⟩
      exact ⟨n, same⟩
    · exact fun r read _ child edge _ _ => keys r (reads read) child edge
  · refine ⟨links, fun c read => contents c (among c read), ?_, fun c read => ?_, fun c read => ?_⟩
    all_goals rw [World.ToldApart, root]
    · exact nodes
    · exact generalisations c (among c read)
    · exact specialisations c (among c read)

/-- A network of a cat and an animal, which refer to each other, and one without nodes. -/
def petsAndDogs : World where
  heap :=
    { uris := .ofList [{ name := "domain" }, { name := "simulation" }, { name := "pets" },
        { name := "dogs" }, { name := "cat" }, { name := "animal" }, { name := "dog" }]
      conceptLines := .ofList [{ frames := .ofList [(5, 1)] }, { frames := .ofList [(4, 0)] }]
      concepts := .ofList
        [{ generalisations := some 0, content := ⟨"cat", "cat"⟩, uri := 4 },
          { specialisations := some 1, content := ⟨"animal", "animal"⟩, uri := 5 },
          { content := ⟨"dog", "dog"⟩, uri := 6 }]
      networks := .ofList [{ nodes := [0, 1], uri := 2 }, { uri := 3 }] }
  kb := .onlyRoot
  id2object _ := none

/-- The nodes of a network are replaced by the dog. -/
def World.withDog (s : World) (n : NetworkRef) : World :=
  { s with heap := { s.heap with
      networks := s.heap.networks.modify n fun network => { network with nodes := [2] } } }

theorem World.kb_withDog (s : World) (n : NetworkRef) : (s.withDog n).kb = s.kb := rfl

/-- The pets, saved for the first time. -/
def firstPets : SavedModel := ⟨0, 0, petsAndDogs⟩

/-- The dog, saved under another name. -/
def dogs : SavedModel := ⟨1, 1, (firstPets.after .plain 8).withDog 1⟩

/-- The pets, saved again. -/
def secondPets : SavedModel := ⟨0, 0, dogs.after .plain 8⟩

theorem petsAndDogs_run : ModelRun .plain 8 petsAndDogs [firstPets, dogs, secondPets]
    (secondPets.after .plain 8) := by
  have first : ModelRun .plain 8 petsAndDogs ([] ++ [firstPets]) (firstPets.after .plain 8) :=
    .save firstPets .start
  have second := first.saveFrom (e := dogs) (by rw [dogs, World.kb_withDog])
  exact second.saveFrom (e := secondPets) (by rw [secondPets])

theorem petsAndDogs_restorable : ∀ e ∈ [firstPets, dogs, secondPets], e.Restorable .plain 8 := by
  intro e member
  simp only [List.mem_cons, List.not_mem_nil, or_false] at member
  rcases member with rfl | rfl | rfl
  · apply SavedModel.restorable_of_concepts [0, 1] <;> decide +kernel
  · apply SavedModel.restorable_of_concepts [2] <;> decide +kernel
  · apply SavedModel.restorable_of_concepts [0, 1] <;> decide +kernel

/-- What is saved under one name is the same network of the same concepts. -/
theorem SavedApart.of_agree {kb : KB} {saved : List SavedModel} (concepts : List ConceptRef)
    (unused : ∀ e ∈ saved, ∀ rel ∈ kb.relationshipsOf KB.rootId defaultLinkName, rel.key ≠ e.key)
    (models : ∀ e ∈ saved, ∀ e' ∈ saved, e'.key = e.key → e'.model = e.model ∧
      (∀ c ∈ concepts, AgreeOn concepts e.before.heap e'.before.heap c) ∧
      (∀ c ∈ (e.before.heap.network e.model).nodes, c ∈ concepts) ∧
      (e'.before.heap.network e.model).nodes = (e.before.heap.network e.model).nodes ∧
      (e.before.heap.network e.model).links = [] ∧ (e'.before.heap.network e.model).links = []) :
    SavedApart kb saved where
  unused := unused
  same e member e' member' key := by
    obtain ⟨same, agree, inside, nodes, links, links'⟩ := models e member e' member' key
    rw [same]
    exact .of_agree agree inside nodes links links'

theorem petsAndDogs_apart : SavedApart petsAndDogs.kb [firstPets, dogs, secondPets] :=
  .of_agree [0, 1, 2] (by decide +kernel) (by decide +kernel)

/-- The pets, saved twice with the dog in between under another name, are returned, and so is the
dog. -/
theorem petsAndDogs_returned :
    ReturnsLatest .plain 8 [firstPets, dogs, secondPets] (secondPets.after .plain 8) :=
  returnsLatest_of_savedApart .plain 8 petsAndDogs_run petsAndDogs_restorable petsAndDogs_apart

/-- The first network, whose nodes have been replaced, saved under the same name again. -/
def changedPets : SavedModel := ⟨0, 0, (firstPets.after .plain 8).withDog 0⟩

/-- A process that has been started with a knowledge base, and has the name. -/
def restarted (kb : KB) : World where
  heap := { uris := .ofList [{ name := "domain" }] }
  kb := kb
  id2object _ := none

theorem freshProcess_restarted (t : World) : FreshProcess t (restarted t.kb) :=
  ⟨rfl, fun _ => rfl⟩

/-- Of a model that has been saved, changed and saved again, the old version is returned. -/
theorem changedPets_not_returned :
    ModelRun .plain 8 petsAndDogs [firstPets, changedPets] (changedPets.after .plain 8) ∧
      ¬ ReturnsLatest .plain 8 [firstPets, changedPets] (changedPets.after .plain 8) := by
  have first : ModelRun .plain 8 petsAndDogs ([] ++ [firstPets]) (firstPets.after .plain 8) :=
    .save firstPets .start
  have run := first.saveFrom (e := changedPets) (by rw [changedPets, World.kb_withDog])
  refine ⟨run, fun returns => ?_⟩
  let key := ({ name := "domain" } : KnowledgeURI).text
  let later := restarted (changedPets.after .plain 8).kb
  have last : latest ([firstPets, changedPets].map fun e => (e.key, e)) key = some changedPets := by
    have keys : firstPets.key = key ∧ changedPets.key = key := by decide +kernel
    simp [latest, keys]
  have asked : (uriText .plain 0).run later = .ok key (finalState ((uriText .plain 0).run later)) :=
    eq_ok_of_returned (by decide +kernel)
  obtain ⟨n, w', run, contents⟩ := returns key changedPets last (fun rels => rels)
    (fun rels => .refl rels) later _ 0 (freshProcess_restarted _) asked 0 0
  have loaded : (LongTermMemory.someModel (Platform.plain.withOrder (fun rels => rels)
      fun rels => .refl rels) 8 0 (0 + 1) 0).run later = .ok 0 _ :=
    eq_ok_of_returned (by decide +kernel)
  cases loaded.symm.trans run
  have names := contents.names
  revert names
  decide +kernel

end Example

end ThinkingUnderstanding
