import ThinkingUnderstanding.LifeCycle.Joining
import ThinkingUnderstanding.Math.WriteHistory
import ThinkingUnderstanding.Spike.RoboticRequests

/-!
# Is it the latest resource that is found by its name?

The frames of a context are keyed by URI objects, and these are told apart by identity:
`KnowledgeURI.equals` overloads the comparison that maps use, and does not override it.
Resources stored under two objects of one name stand side by side, and `findByName` takes the
one that is enumerated first. Maps of up to four keys enumerate them in insertion order, larger
ones in the order of identity hashes.

The latest resource is found, whatever these are, unless another one that has been stored under
the name can come first.

## Main definitions

* `ShortTermMemory.findByNameIn` — `findByName`, for an order of the keys
* `FamilyCritic.apply` — the critic that adds a frame
* `Built` — contexts, and what has been stored into them
* `Unshadowed` — no other resource can come first

## Main results

* `Built.records` — what the frames of a context keep of the stores
* `latest_found_iff` — when the latest resource is found under every name
-/

namespace ThinkingUnderstanding

open Math

variable {C P : Type}

namespace ShortTermMemory

/-- `_frames += key -> resource`. -/
def addFrame (ctx : ShortTermMemory C P) (key : UriRef) (resource : Resource) :
    ShortTermMemory C P :=
  { ctx with frames := ctx.frames.insert key resource }

/-- `findByName`, where the keys are enumerated in the given order. -/
def findByNameIn (objects : Objects) (order : List UriRef) (ctx : ShortTermMemory C P)
    (name : String) : Option Resource :=
  match order.filter fun uri => objects.name uri = name with
  | uri :: _ => ctx.frames.get? uri
  | [] => none

theorem findByName_eq (objects : Objects) (ctx : ShortTermMemory C P) (name : String) :
    ctx.findByName objects name = ctx.findByNameIn objects ctx.frames.keys name := rfl

theorem findByNameIn_eq (objects : Objects) (order : List UriRef) (ctx : ShortTermMemory C P)
    (name : String) : ctx.findByNameIn objects order name =
      (order.find? fun uri => objects.name uri = name).bind ctx.frames.get? := by
  rw [← List.head?_filter, findByNameIn]
  cases order.filter fun uri => objects.name uri = name <;> rfl

end ShortTermMemory

/-- An order in which a map may enumerate its keys. Beyond four keys it depends on the identity
hashes of the objects. -/
def Enumerates (keys order : List UriRef) : Prop :=
  order.Perm keys ∧ (keys.length ≤ 4 → order = keys)

theorem Enumerates.refl (keys : List UriRef) : Enumerates keys keys := ⟨.refl keys, fun _ => rfl⟩

/-- `SpikeDataContainer`, without its URI. -/
structure SpikeDataContainer where
  family : String
  time : List ℤ

/-- `FamilyCritic.apply`. The container, the key and the selector request are created; the keys
of the context are enumerated in the given order. -/
def FamilyCritic.apply (objects : Objects) (order : List UriRef)
    (newContainer : SpikeDataContainer → Resource) (newKey : UriRef) (newRequest : SelectorRequest)
    (inputContext : ShortTermMemory C P) (family : String) : ShortTermMemory C P :=
  match (inputContext.findByNameIn objects order spikeResource).map objects.contentOf with
  | some (.roboticDataContainer resource) =>
      let timeList := resource.values.map RoboticData.time
      let spikeData := newContainer { family, time := timeList }
      (inputContext.addFrame newKey spikeData).setLastResult (some (.selectorRequest newRequest))
  | _ => inputContext

/-! ### Contexts and what has been stored into them -/

/-- A store into a context. -/
structure Store where
  key : UriRef
  resource : Resource
  /-- Whether the resource has come into the frames. -/
  filed : Bool := true
  deriving DecidableEq

/-- What an assignment to the last result stores. -/
def ShortTermMemory.assigned (ctx : ShortTermMemory C P) (result : Option Resource) : List Store :=
  result.toList.map fun r =>
    { key := r.uri, resource := r, filed := (ctx.filedResult (some r)).isSome }

/-- Contexts, and what has been stored into them, in this order. A merge stores what has been
stored into the second context after what has been stored into the first one. -/
inductive Built : ShortTermMemory C P → List Store → Prop
  | ofResources (resources : List Resource) :
      Built (ContextHelper.ofResources resources)
        (resources.map fun r => { key := r.uri, resource := r })
  | createContext (resourcesMap : InsertionMap UriRef Resource)
      (classificationResults : List SelectorRequest) :
      Built (ContextHelper.createContext resourcesMap classificationResults)
        (resourcesMap.entries.map fun entry => { key := entry.1, resource := entry.2 })
  | setLastResult {ctx : ShortTermMemory C P} {stores : List Store} (built : Built ctx stores)
      (result : Option Resource) :
      Built (ctx.setLastResult result) (stores ++ ctx.assigned result)
  | addFrame {ctx : ShortTermMemory C P} {stores : List Store} (built : Built ctx stores)
      (key : UriRef) (resource : Resource) :
      Built (ctx.addFrame key resource) (stores ++ [{ key := key, resource := resource }])
  | merge {first second : ShortTermMemory C P} {stores stores' : List Store}
      (built : Built first stores) (built' : Built second stores') :
      Built (ContextHelper.merge first second) (stores ++ stores')
  /-- An assignment to any of the other fields. -/
  | assign {ctx ctx' : ShortTermMemory C P} {stores : List Store} (built : Built ctx stores)
      (frames : ctx'.frames = ctx.frames) : Built ctx' stores

/-- The stores that have come into the frames, as writes. -/
def filedWrites (stores : List Store) : List (UriRef × Resource) :=
  (stores.filter Store.filed).map fun s => (s.key, s.resource)

theorem filedWrites_append (stores stores' : List Store) :
    filedWrites (stores ++ stores') = filedWrites stores ++ filedWrites stores' := by
  rw [filedWrites, List.filter_append, List.map_append, filedWrites, filedWrites]

/-- Stores that have all come into the frames. -/
theorem filedWrites_map {α : Type*} (entries : List α) (entry : α → UriRef × Resource) :
    filedWrites (entries.map fun a => { key := (entry a).1, resource := (entry a).2 }) =
      entries.map entry := by
  induction entries with
  | nil => rfl
  | cons a rest ih => exact congrArg (entry a :: ·) ih

/-- What an assignment to the last result writes to the frames. -/
theorem ShortTermMemory.filedWrites_assigned (ctx : ShortTermMemory C P)
    (result : Option Resource) : filedWrites (ctx.assigned result) =
      (ctx.filedResult result).toList.map fun r => (r.uri, r) := by
  cases result with
  | none => rfl
  | some r =>
    cases filed : ctx.filedResult (some r) with
    | none => simp [assigned, filed, filedWrites]
    | some r' =>
      obtain rfl := Option.some.inj (filedResult_eq_some_iff.mp filed).1
      simp [assigned, filed, filedWrites]

/-- The frames of a context keep the stores that have come into them. -/
theorem Built.records {ctx : ShortTermMemory C P} {stores : List Store} (built : Built ctx stores) :
    Records ctx.frames (filedWrites stores) := by
  induction built with
  | ofResources resources =>
    rw [filedWrites_map resources fun r => (r.uri, r)]
    exact Records.ofList _
  | createContext resourcesMap classificationResults =>
    have writes := filedWrites_map resourcesMap.entries id
    have records := Records.entries resourcesMap
    rw [List.map_id] at writes
    rw [← writes] at records
    exact records
  | setLastResult built result ih =>
    rw [ShortTermMemory.frames_setLastResult, filedWrites_append,
      ShortTermMemory.filedWrites_assigned]
    cases ShortTermMemory.filedResult _ result with
    | none => exact (List.append_nil _).symm ▸ ih
    | some r => exact ih.insert r.uri r
  | addFrame built key resource ih =>
    rw [filedWrites_append]
    exact ih.insert key resource
  | merge built built' ih ih' =>
    rw [filedWrites_append]
    exact ih.union ih'
  | assign built frames ih => exact frames ▸ ih

/-! ### The merges and the critic -/

section Merges

open ContextHelper

variable {contexts : List (ShortTermMemory C P)} {histories : List (List Store)}

theorem built_foldl_merge (built : List.Forall₂ Built contexts histories)
    {first : ShortTermMemory C P} {stores : List Store} (builtFirst : Built first stores) :
    Built (contexts.foldl merge first) (stores ++ histories.flatten) := by
  induction built generalizing first stores with
  | nil => exact (List.append_nil stores).symm ▸ builtFirst
  | cons head rest ih =>
    rw [List.flatten_cons, ← List.append_assoc]
    exact ih (builtFirst.merge head)

theorem built_mergeAll (built : List.Forall₂ Built contexts histories) :
    Built (mergeAll contexts) histories.flatten := by
  cases built with
  | nil => exact Built.ofResources []
  | cons head rest => exact built_foldl_merge rest head

theorem built_mergeLast (built : List.Forall₂ Built contexts histories) {last : ShortTermMemory C P}
    (has : contexts.getLast? = some last) :
    Built (mergeLast contexts)
      (histories.flatten ++ (mergeAll contexts).assigned last.lastResult) := by
  rw [mergeLast, has]
  exact ((built_mergeAll built).setLastResult last.lastResult).assign rfl

theorem built_mergeFirstAndLastResult (built : List.Forall₂ Built contexts histories)
    {last : ShortTermMemory C P} (has : contexts.getLast? = some last) :
    Built (mergeFirstAndLastResult contexts)
      (histories.flatten ++ (mergeAll contexts).assigned last.lastResult) := by
  have merged := built_mergeAll built
  cases contexts with
  | nil => cases has
  | cons head rest =>
    rw [mergeFirstAndLastResult, has, List.head?_cons]
    cases result : last.lastResult with
    | none =>
      have none : (mergeAll (head :: rest)).assigned Option.none = [] := rfl
      rw [none, List.append_nil]
      apply merged.assign
      dsimp only
      rw [result]
      rfl
    | some r =>
      apply (merged.setLastResult (some r)).assign
      dsimp only
      rw [result]
      rfl

theorem built_mergeWithBaseContext [DecidableEq C] [DecidableEq P] {base : ShortTermMemory C P}
    {supplemental : List (ShortTermMemory C P)}
    (built : List.Forall₂ Built (base :: supplemental) histories) :
    Built (mergeWithBaseContext base supplemental)
      (histories.flatten ++ (mergeAll (base :: supplemental)).assigned
        (((base :: supplemental).getLast (List.cons_ne_nil _ _)).lastResult <|>
          base.lastResult)) :=
  ((built_mergeAll built).setLastResult _).assign rfl

/-- The critic stores the spike data, if there is robotic data, and a selector request. -/
theorem built_familyCritic {ctx : ShortTermMemory C P} {stores : List Store}
    (built : Built ctx stores) {objects : Objects} {order : List UriRef}
    {resource : RoboticDataContainer}
    (found : (ctx.findByNameIn objects order spikeResource).map objects.contentOf =
      some (.roboticDataContainer resource))
    (newContainer : SpikeDataContainer → Resource) (newKey : UriRef) (newRequest : SelectorRequest)
    (family : String) :
    let spikeData := newContainer { family, time := resource.values.map RoboticData.time }
    let added := ctx.addFrame newKey spikeData
    Built (FamilyCritic.apply objects order newContainer newKey newRequest ctx family)
      (stores ++ [{ key := newKey, resource := spikeData }] ++
        added.assigned (some (.selectorRequest newRequest))) := by
  rw [FamilyCritic.apply, found]
  exact (built.addFrame newKey _).setLastResult _

end Merges

/-! ### The resource that is found -/

section Found

variable (objects : Objects)

/-- The resource that has been stored last under a name. -/
def lastStored (stores : List Store) (name : String) : Option Resource :=
  (stores.reverse.find? fun s => objects.name s.key = name).map Store.resource

/-- Nothing hides what has been stored last under a name. Where at most four objects have been
filed under, the first one with the name holds it; where there have been more, some object has
the name, and each that has it holds it. -/
def Unshadowed (stores : List Store) : Prop :=
  ∀ name, (∃ s ∈ stores, objects.name s.key = name) →
    let filed := (filedWrites stores).map Prod.fst
    if filed.toFinset.card ≤ 4 then
      ∃ u, filed.find? (fun u => objects.name u = name) = some u ∧
        latest (filedWrites stores) u = lastStored objects stores name
    else
      (∃ u ∈ filed, objects.name u = name) ∧ ∀ u ∈ filed, objects.name u = name →
        latest (filedWrites stores) u = lastStored objects stores name

variable {objects} {ctx : ShortTermMemory C P} {stores : List Store} {name : String}

theorem isSome_lastStored_iff :
    (lastStored objects stores name).isSome ↔ ∃ s ∈ stores, objects.name s.key = name := by
  rw [lastStored, Option.isSome_map, List.find?_isSome]
  simp

/-- What has come into the frames has been stored. -/
theorem exists_store_of_mem_filedWrites {u : UriRef}
    (member : u ∈ (filedWrites stores).map Prod.fst) : ∃ s ∈ stores, s.key = u := by
  obtain ⟨write, filed, rfl⟩ := List.mem_map.mp member
  obtain ⟨s, kept, rfl⟩ := List.mem_map.mp filed
  exact ⟨s, List.mem_of_mem_filter kept, rfl⟩

/-- Where a key with the name comes first that was last filed under what has been stored last,
this is found. -/
theorem findByNameIn_of_find? (built : Built ctx stores) {order : List UriRef} {u : UriRef}
    (first : order.find? (fun u => objects.name u = name) = some u) :
    ctx.findByNameIn objects order name = latest (filedWrites stores) u := by
  rw [ShortTermMemory.findByNameIn_eq, first, Option.bind_some, built.records.get?]

theorem findByNameIn_of_find?_eq_none {order : List UriRef}
    (none : order.find? (fun u => objects.name u = name) = none) :
    ctx.findByNameIn objects order name = Option.none := by
  rw [ShortTermMemory.findByNameIn_eq, none, Option.bind_none]

/-- The latest resource is found under every name, in whatever order the keys are enumerated,
exactly when none hides another. -/
theorem latest_found_iff (built : Built ctx stores) :
    (∀ order, Enumerates ctx.frames.keys order → ∀ name,
        ctx.findByNameIn objects order name = lastStored objects stores name) ↔
      Unshadowed objects stores := by
  have records := built.records
  have size := records.length_keys
  constructor
  · intro all name stored
    have some := isSome_lastStored_iff.mpr stored
    have inOrder := all _ (Enumerates.refl _) name
    -- the keys as they have been inserted
    have exists_first : ∃ u, ((filedWrites stores).map Prod.fst).find?
        (fun u => objects.name u = name) = Option.some u := by
      rw [← records.find?, ← Option.isSome_iff_exists]
      by_contra none
      rw [findByNameIn_of_find?_eq_none (Option.not_isSome_iff_eq_none.mp none)] at inOrder
      rw [← inOrder] at some
      cases some
    obtain ⟨u, first⟩ := exists_first
    dsimp only
    split
    case isTrue small =>
      refine ⟨u, first, ?_⟩
      rw [← findByNameIn_of_find? built ((records.find? _).trans first), inOrder]
    case isFalse large =>
      refine ⟨⟨u, List.mem_of_find?_eq_some first, by simpa using List.find?_some first⟩,
        fun u member named => ?_⟩
      -- an order in which the key comes first
      have perm : (u :: ctx.frames.keys.erase u).Perm ctx.frames.keys :=
        (List.perm_cons_erase (records.mem_keys_iff.mpr member)).symm
      have found : (u :: ctx.frames.keys.erase u).find? (fun u => objects.name u = name) =
          Option.some u := List.find?_cons_of_pos (decide_eq_true named)
      rw [← findByNameIn_of_find? built found]
      exact all _ ⟨perm, fun small => absurd (size ▸ small) large⟩ name
  · intro unshadowed order enumerates name
    cases found : order.find? (fun u => objects.name u = name) with
    | none =>
      rw [findByNameIn_of_find?_eq_none found]
      by_contra other
      have stored := isSome_lastStored_iff.mp (Option.isSome_iff_ne_none.mpr (Ne.symm other))
      have holds := unshadowed name stored
      -- some key with the name has been filed
      obtain ⟨u, member, named⟩ : ∃ u ∈ (filedWrites stores).map Prod.fst,
          objects.name u = name := by
        dsimp only at holds
        split at holds
        · obtain ⟨u, first, -⟩ := holds
          exact ⟨u, List.mem_of_find?_eq_some first, by simpa using List.find?_some first⟩
        · exact holds.1
      have inside := enumerates.1.mem_iff.mpr (records.mem_keys_iff.mpr member)
      exact List.find?_eq_none.mp found u inside (decide_eq_true named)
    | some u =>
      have member := records.mem_keys_iff.mp
        (enumerates.1.mem_iff.mp (List.mem_of_find?_eq_some found))
      have named : objects.name u = name := by simpa using List.find?_some found
      obtain ⟨s, inside, rfl⟩ := exists_store_of_mem_filedWrites member
      have holds := unshadowed name ⟨s, inside, named⟩
      rw [findByNameIn_of_find? built found]
      dsimp only at holds
      split at holds
      case isTrue small =>
        obtain ⟨u, first, same⟩ := holds
        rw [enumerates.2 (size.symm ▸ small), records.find?, first] at found
        exact Option.some.inj found ▸ same
      case isFalse => exact holds.2 _ member named

end Found

/-! ### The data of a hand, and the spikes made of them -/

/-- The URIs of a selector request, and three that have the name of spikes; the data of a hand. -/
def handObjects : Objects where
  name u :=
    if u = 2 then selectorRequestSpikeGeneratorURIName
    else if u = 3 then selectorRequestSpikeGeneratorURI
    else spikeResource
  content object :=
    if object = 0 then
      .roboticDataContainer { channel := handChannelNumber, values := [{ data := "80", time := 10 }] }
    else .unknown

/-- The context of the data. -/
def handContext : ShortTermMemory ConceptRef PhraseRef :=
  ContextHelper.ofLastResult [.other 0 0] (.other 0 0)

/-- The data are stored as a resource, and as the last result. -/
def handStores : List Store :=
  [{ key := 0, resource := .other 0 0 }, { key := 0, resource := .other 0 0 }]

theorem built_handContext : Built handContext handStores :=
  (Built.ofResources [.other 0 0]).setLastResult (some (.other 0 0))

theorem handContext_latest_found : Built handContext handStores ∧
    ∀ order, Enumerates handContext.frames.keys order →
      ∀ name, handContext.findByNameIn handObjects order name =
        lastStored handObjects handStores name := by
  refine ⟨built_handContext, (latest_found_iff built_handContext).mpr ?_⟩
  intro name stored
  obtain ⟨s, member, rfl⟩ := stored
  have key : s.key = 0 := by
    rcases List.mem_pair.mp member with rfl | rfl <;> rfl
  rw [key]
  decide

/-- The critic for hands stores the spikes. -/
def handSpikes : ShortTermMemory ConceptRef PhraseRef :=
  FamilyCritic.apply handObjects handContext.frames.keys (fun _ => .other 1 4) 1
    { resourceURIList := [3], uri := 2 } handContext "hand"

/-- The spikes have been stored last under their name, and the data are found. -/
theorem data_hide_spikes : ∃ stores, Built handSpikes stores ∧
    lastStored handObjects stores spikeResource = some (.other 1 4) ∧
    handSpikes.findByName handObjects spikeResource = some (.other 0 0) := by
  have found : (handContext.findByNameIn handObjects handContext.frames.keys spikeResource).map
      handObjects.contentOf = some (.roboticDataContainer
        { channel := handChannelNumber, values := [{ data := "80", time := 10 }] }) := by decide
  refine ⟨_, built_familyCritic built_handContext found _ _ _ _, ?_, ?_⟩
  · decide
  · decide

end ThinkingUnderstanding
