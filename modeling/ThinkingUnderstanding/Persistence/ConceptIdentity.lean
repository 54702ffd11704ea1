import ThinkingUnderstanding.Math.RelatedLists
import ThinkingUnderstanding.Persistence.ConceptTotality
import ThinkingUnderstanding.Semantics.StackDepth

/-!
# A load ends, with one concept for each node

Concepts and phrases refer to each other in cycles, and relationships are followed from both of
their ends. A load ends all the same: what it comes to is registered before its
children are loaded, so along every chain of calls there are fewer and fewer nodes without an
object. A stack that is deeper than the number of these nodes does not overflow, and the outcome is
the one on every deeper stack.

What the table of objects holds is consistent with the store when every concept has the number of
its node, and its frames are registered. A load keeps this, and so the concepts that are
reached from its result by frames are one for each node.

## Main definitions

* `World.Within` — fewer nodes without an object than the stack is deep
* `World.CacheConsistent` — a table of objects that is consistent with the store
* `World.Reaches` — concepts reached by frames
* `World.OnePerNode` — the concepts that are reached are one for each node

## Main results

* `fits_loadPhrase`, `fits_loadConcept` — a stack that is deep enough does not overflow
* `approximates_loadConcept` — a deeper stack makes no difference
* `World.CacheConsistent.load` — a load keeps the table consistent
* `Concept.load_terminates_onePerNode` — a load ends, with one concept for each node
-/

namespace ThinkingUnderstanding

open Math Semantics

/-! ### Deeper stacks -/

section Deeper

variable {platform : Platform} {τ : Type} {overflow : KBFailure}

theorem approximates_loadFrames {load load' : Loader τ}
    (deeper : ∀ parent key linkType,
      Approximates overflow (load parent key linkType) (load' parent key linkType))
    (id : ℕ) (linkType : String) :
    Approximates overflow (loadFrames platform load id linkType)
      (loadFrames platform load' id linkType) := by
  refine (Approximates.refl _).bind fun w => Approximates.foldlM _ (fun acc uri => ?_) _
  refine (Approximates.refl _).bind fun key => ?_
  exact (deeper (some id) uri linkType).bind fun _ => .refl _

theorem approximates_loadPhrase (platform : Platform) (stack : ℕ) (parent : Option ℕ)
    (key linkType : String) :
    Approximates .stackOverflowError (AnnotatedPhrase.load platform stack parent key linkType)
      (AnnotatedPhrase.load platform (stack + 1) parent key linkType) := by
  induction stack generalizing parent key linkType with
  | zero => exact .throw _
  | succ stack ih =>
    refine (Approximates.refl _).bind fun w => ?_
    split
    · exact .refl _
    · refine (Approximates.refl _).bind fun found => ?_
      split
      · exact .refl _
      · exact .refl _
      · refine (Approximates.refl _).bind fun u => (Approximates.refl _).bind fun res => ?_
        refine (Approximates.refl _).bind fun _ => (Approximates.refl _).bind fun w => ?_
        refine (Approximates.refl _).bind fun cs => (Approximates.refl _).bind fun _ => ?_
        exact (Approximates.mapM _ fun child => ih _ child phrasesLinkName).bind fun _ => .refl _

theorem approximates_loadConcept (platform : Platform) (stack : ℕ) (parent : Option ℕ)
    (key linkType : String) :
    Approximates .stackOverflowError (Concept.load platform stack parent key linkType)
      (Concept.load platform (stack + 1) parent key linkType) := by
  induction stack generalizing parent key linkType with
  | zero => exact .throw _
  | succ stack ih =>
    -- the loads that are nested have one frame less on both sides
    have child parent key linkType : Approximates .stackOverflowError
        (Loader.orNull (Concept.load platform stack) parent key linkType)
        (Loader.orNull (Concept.load platform (stack + 1)) parent key linkType) :=
      (ih parent key linkType).bind fun _ => .refl _
    refine (Approximates.refl _).bind fun w => ?_
    split
    · exact .refl _
    · refine (Approximates.refl _).bind fun found => ?_
      split
      · exact .refl _
      · exact .refl _
      · refine (Approximates.refl _).bind fun u => (Approximates.refl _).bind fun res => ?_
        refine (Approximates.refl _).bind fun _ => ?_
        refine (approximates_loadFrames child _ _).bind fun _ => ?_
        refine (Approximates.refl _).bind fun _ => ?_
        refine (approximates_loadFrames child _ _).bind fun _ => ?_
        refine (Approximates.refl _).bind fun _ => ?_
        exact (approximates_loadFrames (approximates_loadPhrase platform stack) _ _).bind
          fun _ => .refl _

end Deeper

/-! ### Stacks that are deep enough -/

/-- The knowledge base is the given one, and fewer of its nodes have no object than the stack is
deep. -/
structure World.Within (kb : KB) (depth : ℕ) (w : World) : Prop where
  same : w.kb = kb
  fewer : w.unloaded (kb.nodes.map Node.id) < depth

section Enough

variable {platform : Platform} {kb : KB} {depth : ℕ} {w w' : World} {τ : Type}

/-- The node of a child is one of the knowledge base. -/
theorem KB.hasNode_of_loadChild {parent : Option ℕ} {key linkType : String} {map : Node}
    (found : kb.loadChild platform parent key linkType = some map) : kb.HasNode map.id := by
  obtain ⟨rel, first, rfl⟩ := Option.map_eq_some_iff.mp found
  rw [kb.id_node]
  have listed := (platform.order_perm _).mem_iff.mp (List.mem_of_find?_eq_some first)
  exact (kb.joined rel (KB.mem_relationshipsOf.mp listed).1).2

theorem World.Within.of_same (within : w.Within kb depth) (same : w'.kb = w.kb)
    (table : w'.id2object = w.id2object) : w'.Within kb depth := by
  refine ⟨same.trans within.same, ?_⟩
  have fewer := within.fewer
  unfold World.unloaded at fewer ⊢
  rwa [table]

theorem World.Within.le {depth' : ℕ} (within : w.Within kb depth) (le : depth ≤ depth') :
    w.Within kb depth' := ⟨within.same, within.fewer.trans_le le⟩

/-- When a node is registered, a stack that is less deep is enough. -/
theorem World.Within.register (within : w.Within kb (depth + 1)) {id : ℕ} {r : ResourceRef}
    (present : kb.HasNode id) (absent : w.id2object id = none) (same : w'.kb = w.kb)
    (table : w'.id2object = Function.update w.id2object id (some r)) : w'.Within kb depth := by
  refine ⟨same.trans within.same, ?_⟩
  have lower := World.unloaded_lt_of_update present absent table
  have fewer := within.fewer
  omega

/-- A step that returns and leaves the knowledge base and the table of objects. -/
theorem fits_of_same {α : Type} {p : KBProgram α}
    (returns : ∀ w, ∃ a w', p.run w = .ok a w' ∧ w'.kb = w.kb ∧ w'.id2object = w.id2object) :
    Fits .stackOverflowError (World.Within kb depth) p := by
  refine .of_run fun w within => ?_
  obtain ⟨a, w', run, same, table⟩ := returns w
  exact ⟨a, w', run, within.of_same same table⟩

theorem fits_createConceptLine (frames : InsertionMap UriRef ConceptRef) :
    Fits .stackOverflowError (World.Within kb depth) (createConceptLine frames) :=
  fits_of_same fun _ => ⟨_, _, rfl, rfl, rfl⟩

theorem fits_createPhraseLine (frames : InsertionMap UriRef PhraseRef) :
    Fits .stackOverflowError (World.Within kb depth) (createPhraseLine frames) :=
  fits_of_same fun _ => ⟨_, _, rfl, rfl, rfl⟩

theorem fits_modifyConcept (c : ConceptRef) (f : Concept → Concept) :
    Fits .stackOverflowError (World.Within kb depth) (modifyConcept c f) :=
  fits_of_same fun _ => ⟨_, _, rfl, rfl, rfl⟩

theorem fits_modifyPhrase (p : PhraseRef) (f : AnnotatedPhrase → AnnotatedPhrase) :
    Fits .stackOverflowError (World.Within kb depth) (modifyPhrase p f) :=
  fits_of_same fun _ => ⟨_, _, rfl, rfl, rfl⟩

theorem fits_createRawURI (raw : String) :
    Fits .stackOverflowError (World.Within kb depth) (createRawURI raw) := by
  unfold createRawURI
  cases KnowledgeURI.ofRaw raw with
  | some uri => exact fits_of_same fun w => ⟨_, _, rfl, rfl, rfl⟩
  | none => exact .throw (by decide)

theorem fits_conceptOfMap (map : Node) :
    Fits .stackOverflowError (World.Within kb depth) (Concept.ofMap platform map) :=
  fits_of_same fun _ => ⟨_, _, rfl, rfl, rfl⟩

theorem fits_loadLinks (id : ℕ) (linkType : String) :
    Fits .stackOverflowError (World.Within kb depth) (loadLinks platform id linkType) := by
  refine .get_bind fun w _ => .foldlM _ (fun acc uri => ?_) _
  split
  · refine (fits_conceptOfMap _).bind fun source => (fits_conceptOfMap _).bind fun destination => ?_
    refine Fits.bind ?_ fun link => .pure _
    exact (fits_createRawURI uri).bind fun u => fits_of_same fun _ => ⟨_, _, rfl, rfl, rfl⟩
  · exact .throw (by decide)

theorem fits_loadFrames {load : Loader τ}
    (fits : ∀ parent key linkType,
      Fits .stackOverflowError (World.Within kb depth) (load parent key linkType))
    (id : ℕ) (linkType : String) :
    Fits .stackOverflowError (World.Within kb depth) (loadFrames platform load id linkType) := by
  refine .get_bind fun w _ => .foldlM _ (fun acc uri => ?_) _
  exact (fits_createRawURI uri).bind fun key => (fits _ _ _).bind fun a => .pure _

/-- A run that is one of a program that fits on a stack that is less deep. -/
theorem fits_run_of_eq {α : Type} {p q : KBProgram α}
    (fits : Fits .stackOverflowError (World.Within kb depth) q) (within : w'.Within kb depth)
    (same : p.run w = q.run w') :
    (∀ t, p.run w ≠ .error .stackOverflowError t) ∧
      ∀ a t, p.run w = .ok a t → t.Within kb (depth + 1) := by
  rw [same]
  obtain ⟨avoids, keeps⟩ := fits w' within
  exact ⟨avoids, fun a t run => (keeps a t run).le (Nat.le_succ depth)⟩

/-- A phrase is loaded on a stack that is deeper than the number of nodes without an object. -/
theorem fits_loadPhrase (depth : ℕ) (parent : Option ℕ) (key linkType : String) :
    Fits .stackOverflowError (World.Within kb depth)
      (AnnotatedPhrase.load platform depth parent key linkType) := by
  induction depth generalizing parent key linkType with
  | zero => exact fun w within => absurd within.fewer (Nat.not_lt_zero _)
  | succ depth ih =>
    intro w within
    change (∀ t, (AnnotatedPhrase.loadWith platform _ parent key linkType).run w ≠ _) ∧
      ∀ a t, (AnnotatedPhrase.loadWith platform _ parent key linkType).run w = _ → _
    cases found : w.kb.loadChild platform parent key linkType with
    | none =>
      rw [run_loadPhrase_of_missing _ found]
      exact ⟨fun t => nofun, fun a t => nofun⟩
    | some map =>
      by_cases accepted : platform.acceptsURI (KnowledgeURI.ofMap platform map).format = true
      · cases cached : w.id2object map.id with
        | some r =>
          rw [run_loadPhrase_of_cached found accepted cached]
          cases r with
          | phrase p => exact ⟨fun t => nofun, fun a t run => by cases run; exact within⟩
          | _ => exact ⟨fun t => nofun, fun a t => nofun⟩
        | none =>
          -- one more node has an object now, so one frame less is enough
          have begun : (w.beginPhrase platform map).Within kb depth := within.register
            (within.same ▸ KB.hasNode_of_loadChild found) cached rfl rfl
          refine fits_run_of_eq ?_ begun (run_loadPhrase_of_new found accepted cached)
          refine .get_bind fun _ _ => ?_
          refine (Fits.mapM _ fun child => fits_conceptOfMap child).bind fun cs => ?_
          refine (fits_modifyPhrase _ _).bind fun _ => ?_
          refine (Fits.mapM _ fun child => ih _ child phrasesLinkName).bind fun ps => ?_
          exact (fits_modifyPhrase _ _).bind fun _ => .pure _
      · rw [run_loadPhrase_of_refused _ found accepted]
        exact ⟨fun t => nofun, fun a t => nofun⟩

theorem fits_orNull {load : Loader (Option ConceptRef)} {parent : Option ℕ} {key linkType : String}
    (fits : Fits .stackOverflowError (World.Within kb depth) (load parent key linkType)) :
    Fits .stackOverflowError (World.Within kb depth) (Loader.orNull load parent key linkType) := by
  refine fits.bind fun result => ?_
  cases result with
  | some c => exact .pure c
  | none => exact .throw (by decide)

/-- So is a concept. -/
theorem fits_loadConcept (depth : ℕ) (parent : Option ℕ) (key linkType : String) :
    Fits .stackOverflowError (World.Within kb depth)
      (Concept.load platform depth parent key linkType) := by
  induction depth generalizing parent key linkType with
  | zero => exact fun w within => absurd within.fewer (Nat.not_lt_zero _)
  | succ depth ih =>
    intro w within
    change (∀ t, (Concept.loadWith platform _ _ parent key linkType).run w ≠ _) ∧
      ∀ a t, (Concept.loadWith platform _ _ parent key linkType).run w = _ → _
    cases found : w.kb.loadChild platform parent key linkType with
    | none =>
      rw [run_loadConcept_of_missing found]
      exact ⟨fun t => nofun, fun a t run => by cases run; exact within⟩
    | some map =>
      by_cases accepted : platform.acceptsURI (KnowledgeURI.ofMap platform map).format = true
      · cases cached : w.id2object map.id with
        | some r =>
          rw [run_loadConcept_of_cached found accepted cached]
          cases r with
          | concept c => exact ⟨fun t => nofun, fun a t run => by cases run; exact within⟩
          | _ => exact ⟨fun t => nofun, fun a t => nofun⟩
        | none =>
          -- as for a phrase, one more node has an object
          have begun : (w.beginConcept platform map).Within kb depth := within.register
            (within.same ▸ KB.hasNode_of_loadChild found) cached rfl rfl
          refine fits_run_of_eq ?_ begun (run_loadConcept_of_new found accepted cached)
          have child parent key linkType := fits_orNull (ih parent key linkType)
          refine (fits_loadFrames child _ _).bind fun _ => ?_
          refine (fits_createConceptLine _).bind fun _ => ?_
          refine (fits_loadFrames child _ _).bind fun _ => ?_
          refine (fits_createConceptLine _).bind fun _ => ?_
          refine (fits_loadFrames (fits_loadPhrase depth) _ _).bind fun _ => ?_
          refine (fits_createPhraseLine _).bind fun _ => (fits_loadLinks _ _).bind fun _ => ?_
          exact (fits_modifyConcept _ _).bind fun _ => .pure _
      · rw [run_loadConcept_of_refused found accepted]
        exact ⟨fun t => nofun, fun a t => nofun⟩

end Enough

/-! ### One object for each node -/

/-- The concepts in the frames of a concept. -/
def Heap.framed (heap : Heap) (c : ConceptRef) : List ConceptRef :=
  (heap.generalisations c).values ++ (heap.specialisations c).values

namespace World

/-- The concept is registered for a node of the knowledge base. -/
def Holds (w : World) (c : ConceptRef) : Prop :=
  ∃ id, w.kb.HasNode id ∧ w.id2object id = some (.concept c)

/-- The concept has the number of the node as its uid, and its frames are registered. -/
structure ConsistentAt (w : World) (id : ℕ) (c : ConceptRef) : Prop where
  inside : c < w.heap.concepts.size
  uriInside : (w.heap.concept c).uri < w.heap.uris.size
  lines : ∀ l, (w.heap.concept c).generalisations = some l ∨
    (w.heap.concept c).specialisations = some l → l < w.heap.conceptLines.size
  uid : w.heap.uid (.concept c) = toString id
  frames : ∀ d ∈ w.heap.framed c, w.Holds d

/-- The table of objects is consistent with the store. -/
def CacheConsistent (w : World) : Prop :=
  ∀ id c, w.id2object id = some (.concept c) → w.ConsistentAt id c

/-- A concept is reached from another one through frames. -/
def Reaches (w : World) : ConceptRef → ConceptRef → Prop :=
  Relation.ReflTransGen fun c d => d ∈ w.heap.framed c

/-- The concepts that are reached are made of nodes, each of another one. -/
structure OnePerNode (w : World) (c : ConceptRef) : Prop where
  node : ∀ x, w.Reaches c x → ∃ id, w.kb.HasNode id ∧ w.heap.uid (.concept x) = toString id
  one : ∀ x y, w.Reaches c x → w.Reaches c y →
    w.heap.uid (.concept x) = w.heap.uid (.concept y) → x = y

variable {platform : Platform} {w w' : World} {id : ℕ} {c d : ConceptRef}

theorem Holds.extended (holds : w.Holds c) (extended : w.Extended w') : w'.Holds c := by
  obtain ⟨id, present, registered⟩ := holds
  exact ⟨id, extended.kb ▸ present, extended.kept id _ registered⟩

/-- The line of a concept is what it was. -/
theorem Extended.line_eq (extended : w.Extended w') {line : Option LineRef}
    (inside : ∀ l, line = some l → l < w.heap.conceptLines.size) :
    line.elim {} w'.heap.conceptLines.get = line.elim {} w.heap.conceptLines.get := by
  cases line with
  | none => rfl
  | some l => exact extended.conceptLines.get l (inside l rfl)

theorem ConsistentAt.extended (consistent : w.ConsistentAt id c) (extended : w.Extended w') :
    w'.ConsistentAt id c := by
  have same : w'.heap.concept c = w.heap.concept c := extended.concepts.get c consistent.inside
  have framed : w'.heap.framed c = w.heap.framed c := by
    unfold Heap.framed Heap.generalisations Heap.specialisations
    rw [same, extended.line_eq fun l line => consistent.lines l (Or.inl line),
      extended.line_eq fun l line => consistent.lines l (Or.inr line)]
  constructor
  case inside => exact consistent.inside.trans_le extended.concepts.size
  case uriInside =>
    rw [same]
    exact consistent.uriInside.trans_le extended.uris.size
  case lines =>
    rw [same]
    exact fun l line => (consistent.lines l line).trans_le extended.conceptLines.size
  case uid =>
    have uid := consistent.uid
    change (w'.heap.uris.get (w'.heap.concept c).uri).uid = toString id
    rw [same, extended.uris.get _ consistent.uriInside]
    exact uid
  case frames =>
    rw [framed]
    exact fun d member => (consistent.frames d member).extended extended

/-- The objects that are loaded for the children of a node are registered. -/
theorem Framed.holds {linkType : String} {cs : List ConceptRef}
    (framed : w.Framed platform id linkType (cs.map .concept)) : ∀ d ∈ cs, w.Holds d := by
  intro d member
  rw [Framed, List.forall₂_map_right_iff] at framed
  obtain ⟨key, -, map, found, registered⟩ := exists_of_mem_right framed member
  exact ⟨map.id, KB.hasNode_of_loadChild found, registered⟩

end World

/-- A concept that has been loaded is consistent with its node. -/
theorem Concept.Complete.consistentAt {platform : Platform} {w : World} {id : ℕ} {c : ConceptRef}
    (complete : Concept.Complete platform w id c) : w.ConsistentAt id c := by
  obtain ⟨g, general, generalInside, generalisations⟩ := complete.generalisations
  obtain ⟨s, special, specialInside, specialisations⟩ := complete.specialisations
  constructor
  case inside => exact complete.inside
  case uriInside => exact complete.uriInside
  case lines =>
    rintro l (line | line)
    · rw [general, Option.some_inj] at line
      exact line ▸ generalInside
    · rw [special, Option.some_inj] at line
      exact line ▸ specialInside
  case uid =>
    -- the uid has been made of the number of the node
    have uid := congrArg KnowledgeURI.uid complete.uri
    have number : (KnowledgeURI.ofMap platform (w.kb.node id)).uid = ToString.toString id :=
      congrArg ToString.toString (w.kb.id_node id)
    exact uid.trans number
  case frames =>
    intro d member
    rw [Heap.framed, List.mem_append, Heap.generalisations, Heap.specialisations, general,
      special] at member
    rcases member with general | special
    · exact World.Framed.holds generalisations d general
    · exact World.Framed.holds specialisations d special

namespace World.CacheConsistent

variable {platform : Platform} {w w' : World} {c : ConceptRef}

theorem completes (consistent : w.CacheConsistent) (completes : w.Completes platform w') :
    w'.CacheConsistent := by
  intro id c registered
  rcases completes.complete id c registered with old | ⟨-, complete⟩
  · exact (consistent id c old).extended completes.extended
  · exact complete.consistentAt

/-- A load that returns a concept keeps the table consistent, and the concept is registered. -/
theorem load (consistent : w.CacheConsistent) {stack : ℕ} {parent : Option ℕ}
    {key linkType : String}
    (run : (Concept.load platform stack parent key linkType).run w = .ok (some c) w') :
    w'.CacheConsistent ∧ w'.Holds c := by
  obtain ⟨completes, map, found, registered⟩ := finds_loadConcept stack parent key linkType w c w'
    (run_bind_eq_ok_iff.mpr ⟨some c, w', run, rfl⟩)
  refine ⟨consistent.completes completes, map.id, ?_, registered⟩
  rw [completes.extended.kb]
  exact KB.hasNode_of_loadChild found

/-- What is reached from a registered concept is registered. -/
theorem holds_of_reaches (consistent : w.CacheConsistent) (holds : w.Holds c) {x : ConceptRef}
    (reaches : w.Reaches c x) : w.Holds x := by
  induction reaches with
  | refl => exact holds
  | tail _ edge ih =>
    obtain ⟨id, -, registered⟩ := ih
    exact (consistent id _ registered).frames _ edge

theorem onePerNode (consistent : w.CacheConsistent) (holds : w.Holds c) : w.OnePerNode c where
  node x reaches := by
    obtain ⟨id, present, registered⟩ := consistent.holds_of_reaches holds reaches
    exact ⟨id, present, (consistent id x registered).uid⟩
  one x y toX toY same := by
    obtain ⟨id, -, registered⟩ := consistent.holds_of_reaches holds toX
    obtain ⟨id', -, registered'⟩ := consistent.holds_of_reaches holds toY
    rw [(consistent id x registered).uid, (consistent id' y registered').uid] at same
    obtain rfl := toString_nat_injective same
    rw [registered, Option.some_inj] at registered'
    exact ResourceRef.concept.inj registered'

end World.CacheConsistent

/-- From a table of objects that is consistent with the store, a load ends, on every stack that is
deeper than the number of nodes without an object in the same way; and the concepts that are
reached from the one it returns are one for each node. -/
theorem Concept.load_terminates_onePerNode (platform : Platform) (w : World)
    (consistent : w.CacheConsistent) (parent : Option ℕ) (key linkType : String) :
    ∃ outcome, (∀ stack > w.unloaded (w.kb.nodes.map Node.id),
        (Concept.load platform stack parent key linkType).run w = outcome) ∧
      (∀ w', outcome ≠ .error .stackOverflowError w') ∧
      ∀ c w', outcome = .ok (some c) w' → w'.OnePerNode c := by
  let enough := w.unloaded (w.kb.nodes.map Node.id) + 1
  have fits : Fits .stackOverflowError (World.Within w.kb enough)
      (Concept.load platform enough parent key linkType) :=
    fits_loadConcept enough parent key linkType
  have within : w.Within w.kb enough := ⟨rfl, Nat.lt_succ_self _⟩
  refine ⟨(Concept.load platform enough parent key linkType).run w, ?_, ?_, ?_⟩
  · intro stack deep
    exact run_eq_of_fits (p := fun stack => Concept.load platform stack parent key linkType)
      (fun stack => approximates_loadConcept platform stack parent key linkType) fits within deep
  · exact (fits w within).1
  · intro c w' run
    obtain ⟨consistent', holds⟩ := consistent.load run
    exact consistent'.onePerNode holds

/-! ### Two concepts that refer to each other -/

/-- A concept and its specialisation. -/
def vehicleAndCar : World where
  heap :=
    { uris := .ofList [{ name := "vehicle" }, { name := "car" }]
      conceptLines := .ofList [{ frames := InsertionMap.empty.insert 1 1 },
        { frames := InsertionMap.empty.insert 0 0 }]
      concepts := .ofList [{ uri := 0, specialisations := some 0 },
        { uri := 1, generalisations := some 1 }] }
  kb := .onlyRoot
  id2object _ := none

/-- A process that has loaded nothing, after both have been stored. -/
def vehicleAndCarStored : World where
  heap := {}
  kb := (finalState ((saveAnew .plain 3 (.concept 0) (some KB.rootId) "vehicle"
    defaultLinkName).run vehicleAndCar)).kb
  id2object _ := none

/-- They are loaded as two concepts that refer to each other. -/
theorem vehicleAndCar_onePerNode :
    ∃ c w', (Concept.load .plain 4 (some KB.rootId) "vehicle" defaultLinkName).run
      vehicleAndCarStored = .ok (some c) w' ∧ w'.OnePerNode c := by
  obtain ⟨outcome, ends, -, one⟩ := Concept.load_terminates_onePerNode .plain vehicleAndCarStored
    (fun _ _ registered => nomatch registered) (some KB.rootId) "vehicle" defaultLinkName
  have value : returned ((Concept.load .plain 4 (some KB.rootId) "vehicle" defaultLinkName).run
      vehicleAndCarStored) = some (some 0) := by decide +kernel
  have run := eq_ok_of_returned value
  exact ⟨0, _, run, one 0 _ ((ends 4 (by decide +kernel)).symm.trans run)⟩

end ThinkingUnderstanding
