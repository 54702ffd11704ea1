import ThinkingUnderstanding.Hierarchy.Ancestry
import ThinkingUnderstanding.Hierarchy.WellFormed
import ThinkingUnderstanding.Parsing.Morphology

/-!
# The part of speech of an annotated word

For a word in exactly one annotated phrase, `MorphyKB.morph` climbs from the concepts of the phrase
to the most generic ones, and compares their names with those of the subject, the object and the
action, followed by a suffix. `Concept.apply` puts this suffix behind the name of a concept, and
`Concept.createSubConcept` does not. The predefined concepts are made by the second one, below a
concept of another name.

Concepts made one below the other have one generalisation each, so what is above them is what is
above the first one.

## Main definitions

* `Concept.createSubConcepts` — a chain of calls
* `Heap.BuiltBelow` — how a concept that is made by it stands below the first one
* `Heap.MostGeneric` — an ancestor without generalisations
* `MorphyKB.Category`, `MorphyKB.GivesOneRoot` — what is predefined, and what the word should get

## Main results

* `Heap.builtBelow_createSubConcepts` — a chain of calls, by induction on the names
* `mem_mostGenericGeneralisation_iff`, `isSome_mostGenericGeneralisation_iff` — the climb
* `mostGenericGeneralisation_roots` — what it finds without cycles
* `givesOneRoot_iff` — when the annotation decides
-/

namespace ThinkingUnderstanding

open Math Relation

namespace Concept

/-- Calls of `createSubConcept`, each below the concept made by the one before. -/
def createSubConcepts (parent : ConceptRef) : List String → GraphProgram ConceptRef
  | [] => return parent
  | name :: names => do createSubConcepts (← createSubConcept parent name) names

end Concept

namespace Heap

variable {heap : Heap} {c k parent r : ConceptRef}

/-- A concept whose only generalisation is its parent, and so on up to `k`. -/
def BuiltBelow (heap : Heap) (k c : ConceptRef) : Prop :=
  ReflTransGen (fun parent child => heap.generalisationsList child = [parent]) k c

/-- An ancestor without generalisations. -/
def MostGeneric (heap : Heap) (c r : ConceptRef) : Prop :=
  heap.Ancestor c r ∧ heap.generalisationsList r = []

/-! ### Chains of calls -/

theorem size_concepts_withChild (parent : ConceptRef) (line : LineRef) (content : KnowledgeString)
    (uri : KnowledgeURI) :
    (heap.withChild parent line content uri).concepts.size = heap.concepts.size + 1 :=
  size_concepts_constructed _ content uri

/-- One call makes a concept below its parent, and changes no generalisation. -/
theorem exists_run_createSubConcept_eq (wf : heap.WellFormed)
    (present : parent < heap.concepts.size) (name : String) :
    ∃ heap', (Concept.createSubConcept parent name).run heap = .ok heap.concepts.size heap' ∧
      heap'.WellFormed ∧ heap'.concepts.size = heap.concepts.size + 1 ∧
      heap'.generalisationsList heap.concepts.size = [parent] ∧
      ∀ c < heap.concepts.size, heap'.generalisationsList c = heap.generalisationsList c := by
  obtain ⟨-, line, -, has, -, -⟩ := wf.lines parent present
  refine ⟨_, run_createChild present has name { name }, wf.withChild present line _ _,
    size_concepts_withChild .., ?_, fun c before => ?_⟩
  · rw [generalisationsList, generalisations_withChild wf present has, if_pos rfl]
    rfl
  · rw [generalisationsList, generalisations_withChild wf present has, if_neg before.ne]
    rfl

/-- A chain of calls makes a concept below the first one, and changes no generalisation. -/
theorem builtBelow_createSubConcepts (wf : heap.WellFormed) (present : k < heap.concepts.size)
    (names : List String) :
    ∃ c heap', (Concept.createSubConcepts k names).run heap = .ok c heap' ∧
      heap'.BuiltBelow k c ∧
      ∀ d < heap.concepts.size, heap'.generalisationsList d = heap.generalisationsList d := by
  induction names generalizing heap k with
  | nil => exact ⟨k, heap, rfl, ReflTransGen.refl, fun _ _ => rfl⟩
  | cons name names ih =>
    obtain ⟨made, run, wf', size, parent, same⟩ := exists_run_createSubConcept_eq wf present name
    have present' : heap.concepts.size < made.concepts.size := size ▸ Nat.lt_succ_self _
    obtain ⟨c, heap', rest, below, same'⟩ := ih wf' present'
    refine ⟨c, heap', ?_, .head ?_ below, fun d before => ?_⟩
    · rw [Concept.createSubConcepts, EStateM.run_bind, run]
      exact rest
    · rw [same' _ present', parent]
    · rw [same' d (before.trans present'), same d before]

/-- Nothing but itself is most generic above a concept without generalisations. -/
theorem mostGeneric_iff_of_eq_nil (root : heap.generalisationsList c = []) :
    heap.MostGeneric c r ↔ r = c := by
  rw [MostGeneric, ancestor_iff, root]
  constructor
  · rintro ⟨rfl | ⟨g, none, -⟩, -⟩
    · rfl
    · cases none
  · rintro rfl
    exact ⟨Or.inl rfl, root⟩

/-- Above another one, it is what is most generic above its generalisations. -/
theorem mostGeneric_iff_of_ne_nil (some : heap.generalisationsList c ≠ []) :
    heap.MostGeneric c r ↔ ∃ g ∈ heap.generalisationsList c, heap.MostGeneric g r := by
  rw [MostGeneric, ancestor_iff]
  constructor
  · rintro ⟨rfl | ⟨g, general, up⟩, root⟩
    · exact absurd root some
    · exact ⟨g, general, up, root⟩
  · rintro ⟨g, general, up, root⟩
    exact ⟨Or.inr ⟨g, general, up⟩, root⟩

/-- Without cycles, the generalisations of a concept end in one without generalisations. -/
theorem AcyclicGeneralisations.exists_mostGeneric (acyclic : heap.AcyclicGeneralisations)
    (c : ConceptRef) : ∃ r, heap.MostGeneric c r := by
  induction acyclic.acc c with
  | intro c _ ih =>
    by_cases root : heap.generalisationsList c = []
    · exact ⟨c, ReflTransGen.refl, root⟩
    · obtain ⟨g, general⟩ := List.exists_mem_of_ne_nil _ root
      obtain ⟨r, up⟩ := ih g general
      exact ⟨r, (mostGeneric_iff_of_ne_nil root).mpr ⟨g, general, up⟩⟩

/-- What is most generic above a concept of a chain is so above the first one. -/
theorem BuiltBelow.mostGeneric_iff (built : heap.BuiltBelow k c) :
    heap.MostGeneric c r ↔ heap.MostGeneric k r := by
  induction built with
  | refl => rfl
  | tail _ made ih =>
    rw [← ih, mostGeneric_iff_of_ne_nil (made ▸ List.cons_ne_nil _ _), made]
    simp only [List.mem_singleton, exists_eq_left]

end Heap

namespace MorphyKB

variable {heap : Heap} {stack : ℕ} {c k r : ConceptRef} {cs rs : List ConceptRef}

/-! ### The climb -/

theorem size_generalisations_eq_zero_iff :
    (heap.generalisations c).size = 0 ↔ heap.generalisationsList c = [] := by
  rw [Heap.generalisationsList, ← List.length_eq_zero_iff]
  exact iff_of_eq (congrArg (· = 0) (List.length_map _).symm)

/-- One step of the climb. -/
theorem mostGenericGeneralisations_succ (stack : ℕ) (cs : List ConceptRef) :
    mostGenericGeneralisations heap (stack + 1) cs =
      ((cs.filter fun c => heap.generalisationsList c ≠ []).mapM fun c =>
        mostGenericGeneralisations heap stack (heap.generalisationsList c)).map
      fun above => above.flatten ++ cs.filter fun c => heap.generalisationsList c = [] := by
  have roots : ∀ c, decide ((heap.generalisations c).size = 0) =
      decide (heap.generalisationsList c = []) := fun c =>
    decide_eq_decide.mpr size_generalisations_eq_zero_iff
  have others : ∀ c, decide ((heap.generalisations c).size > 0) =
      decide (heap.generalisationsList c ≠ []) := fun c =>
    decide_eq_decide.mpr (Nat.pos_iff_ne_zero.trans size_generalisations_eq_zero_iff.not)
  rw [mostGenericGeneralisations]
  simp only [roots, others]
  rw [Option.map_eq_bind]
  rfl

/-- The climb from several concepts collects what is most generic above them. -/
theorem mem_mostGenericGeneralisations_iff
    (climbed : mostGenericGeneralisations heap stack cs = some rs) :
    r ∈ rs ↔ ∃ c ∈ cs, heap.MostGeneric c r := by
  induction stack generalizing cs rs r with
  | zero => cases climbed
  | succ stack ih =>
    rw [mostGenericGeneralisations_succ, Option.map_eq_some_iff] at climbed
    obtain ⟨above, higher, rfl⟩ := climbed
    rw [List.mem_append, List.mem_flatten, List.mem_filter, decide_eq_true_eq]
    constructor
    · rintro (⟨found, member, inside⟩ | ⟨listed, root⟩)
      · obtain ⟨c, listed, climb⟩ := (mem_mapM_iff higher).mp member
        obtain ⟨g, general, up, root⟩ := (ih climb).mp inside
        exact ⟨c, List.mem_of_mem_filter listed, Heap.ancestor_iff.mpr (Or.inr ⟨g, general, up⟩),
          root⟩
      · exact ⟨r, listed, ReflTransGen.refl, root⟩
    · rintro ⟨c, listed, up, root⟩
      rcases Heap.ancestor_iff.mp up with rfl | ⟨g, general, up⟩
      · exact Or.inr ⟨listed, root⟩
      · have some : c ∈ cs.filter fun c => heap.generalisationsList c ≠ [] :=
          List.mem_filter.mpr ⟨listed, decide_eq_true (List.ne_nil_of_mem general)⟩
        -- the climb from the generalisations of the concept has returned too
        have defined := isSome_mapM_iff.mp (Option.isSome_of_eq_some higher) c some
        obtain ⟨found, climb⟩ := Option.isSome_iff_exists.mp defined
        exact Or.inl ⟨found, (mem_mapM_iff higher).mpr ⟨c, some, climb⟩,
          (ih climb).mpr ⟨g, general, up, root⟩⟩

theorem pos_of_not_hasWalk {next : ConceptRef → List ConceptRef}
    (short : ¬ HasWalk next stack c) : 0 < stack := by
  refine Nat.pos_of_ne_zero fun empty => short ?_
  rw [empty]
  trivial

/-- It fits on the stack unless there is a chain of generalisations that does not. -/
theorem isSome_mostGenericGeneralisations_iff :
    (mostGenericGeneralisations heap stack cs).isSome ↔
      0 < stack ∧ ∀ c ∈ cs, ¬ HasWalk heap.generalisationsList stack c := by
  induction stack generalizing cs with
  | zero => exact iff_of_false Bool.false_ne_true fun fits => Nat.lt_irrefl 0 fits.1
  | succ stack ih =>
    rw [mostGenericGeneralisations_succ, Option.isSome_map, isSome_mapM_iff,
      and_iff_right stack.succ_pos]
    refine forall_congr' fun c => ?_
    rw [List.mem_filter, decide_eq_true_eq, and_imp]
    refine imp_congr_right fun _ => ?_
    rw [ih, HasWalk]
    push Not
    constructor
    · intro fits g general
      exact (fits (List.ne_nil_of_mem general)).2 g general
    · intro fits some
      obtain ⟨g, general⟩ := List.exists_mem_of_ne_nil _ some
      exact ⟨pos_of_not_hasWalk (fits g general), fits⟩

theorem mostGenericGeneralisation_eq (stack : ℕ) (c : ConceptRef) :
    mostGenericGeneralisation heap stack c =
      if heap.generalisationsList c = [] then some [c]
      else mostGenericGeneralisations heap stack (heap.generalisationsList c) := by
  rw [mostGenericGeneralisation]
  exact ite_congr (propext (Nat.lt_one_iff.trans size_generalisations_eq_zero_iff)) (fun _ => rfl)
    fun _ => rfl

/-- The climb from a concept. -/
theorem mem_mostGenericGeneralisation_iff
    (climbed : mostGenericGeneralisation heap stack c = some rs) :
    r ∈ rs ↔ heap.MostGeneric c r := by
  rw [mostGenericGeneralisation_eq] at climbed
  split_ifs at climbed with root
  · obtain rfl := Option.some.inj climbed
    rw [List.mem_singleton, Heap.mostGeneric_iff_of_eq_nil root]
  · rw [mem_mostGenericGeneralisations_iff climbed, Heap.mostGeneric_iff_of_ne_nil root]

theorem isSome_mostGenericGeneralisation_iff :
    (mostGenericGeneralisation heap stack c).isSome ↔
      ¬ HasWalk heap.generalisationsList (stack + 1) c := by
  rw [mostGenericGeneralisation_eq, HasWalk]
  push Not
  split_ifs with root
  · rw [root]
    exact iff_of_true rfl (List.forall_mem_nil _)
  · rw [isSome_mostGenericGeneralisations_iff]
    obtain ⟨g, general⟩ := List.exists_mem_of_ne_nil _ root
    exact and_iff_right_of_imp fun short => pos_of_not_hasWalk (short g general)

/-- On an acyclic graph and every stack that is deep enough, the climb from a concept returns
what has no generalisations among the concept and its ancestors, and there is something. -/
theorem mostGenericGeneralisation_roots (heap : Heap) (acyclic : heap.AcyclicGeneralisations)
    (c : ConceptRef) : ∃ enough, ∀ stack ≥ enough, ∃ rs,
      mostGenericGeneralisation heap stack c = some rs ∧
        (∀ r, r ∈ rs ↔ heap.MostGeneric c r) ∧ rs ≠ [] := by
  obtain ⟨enough, fits⟩ := acyclic.exists_depth [c]
  refine ⟨enough, fun stack deep => ?_⟩
  have short : ¬ HasWalk heap.generalisationsList (stack + 1) c :=
    fits (stack + 1) (deep.trans stack.le_succ) c (List.mem_singleton_self c)
  obtain ⟨rs, climbed⟩ :=
    Option.isSome_iff_exists.mp (isSome_mostGenericGeneralisation_iff.mpr short)
  refine ⟨rs, climbed, fun r => mem_mostGenericGeneralisation_iff climbed, ?_⟩
  obtain ⟨r, above⟩ := acyclic.exists_mostGeneric c
  exact List.ne_nil_of_mem ((mem_mostGenericGeneralisation_iff climbed).mpr above)

/-- Above the form letter, which is a letter and a form, there is the document only. -/
theorem formLetter_roots : ∃ stack rs,
    mostGenericGeneralisation Heap.formLetter stack 3 = some rs ∧ rs ≠ [] ∧ ∀ r ∈ rs, r = 0 := by
  obtain ⟨enough, climbs⟩ := mostGenericGeneralisation_roots Heap.formLetter
    Heap.acyclic_formLetter 3
  obtain ⟨rs, climbed, roots, some⟩ := climbs enough le_rfl
  refine ⟨enough, rs, climbed, some, fun r member => ?_⟩
  obtain ⟨up, root⟩ := (roots r).mp member
  have above : r ∈ [0, 1, 2, 3] := up.mem_of_closed (by decide +kernel) (by decide)
  have others : ∀ r ∈ [0, 1, 2, 3], Heap.formLetter.generalisationsList r = [] → r = 0 := by
    decide +kernel
  exact others r above root

/-! ### The decision -/

/-- The three predefined concepts. -/
inductive Category
  | subject
  | object
  | action

/-- The kind of root that an annotation below a predefined concept stands for. -/
def Category.partOfSpeech : Category → String
  | subject => "noun"
  | object => "noun"
  | action => "verb"

/-- The word gets one root, of the kind of the category, whatever the dictionary says. -/
def GivesOneRoot (heap : Heap) (stack : ℕ) (morphy : MorphyKB) (word : String)
    (category : Category) : Prop :=
  ∀ wordNet : String → Morphed, morph heap wordNet stack morphy word =
    .ok { wordNet word with features := [(category.partOfSpeech, word)] }

/-- What is most generic above the concept has a name of these. -/
def NamedAbove (heap : Heap) (k : ConceptRef) (names : List String) : Prop :=
  ∃ r, heap.MostGeneric k r ∧ (heap.uriOf r).name ∈ names

/-- The names above the concept tell the category. -/
def Tells (heap : Heap) (k : ConceptRef) : Category → Prop
  | .subject | .object => NamedAbove heap k ["subjectConcept", "objectConcept"]
  | .action => NamedAbove heap k ["actionConcept", "desireConcept"] ∧
      ¬ NamedAbove heap k ["subjectConcept", "objectConcept"]

/-- One of two names is found by `getConceptByName`. -/
theorem exists_named_iff (first second : String) :
    (∃ r ∈ rs, (heap.uriOf r).name ∈ [first ++ "Concept", second ++ "Concept"]) ↔
      (getConceptByName heap rs first).isSome ∨ (getConceptByName heap rs second).isSome := by
  have found : ∀ name, (getConceptByName heap rs name).isSome ↔
      ∃ r ∈ rs, (heap.uriOf r).name = name ++ "Concept" := by
    intro name
    rw [getConceptByName, List.find?_isSome]
    simp only [decide_eq_true_eq]
    rfl
  rw [found, found]
  simp only [List.mem_cons, List.not_mem_nil, or_false, and_or_left, exists_or]

theorem correctedType_eq_noun_iff : correctedType heap rs = some "noun" ↔
    ∃ r ∈ rs, (heap.uriOf r).name ∈ ["subjectConcept", "objectConcept"] := by
  refine Iff.trans ?_ (exists_named_iff "subject" "object").symm
  unfold correctedType
  split_ifs with subject object action desire polite
  · exact iff_of_true rfl (Or.inl subject)
  · exact iff_of_true rfl (Or.inr object)
  all_goals exact iff_of_false (by decide) (not_or.mpr ⟨subject, object⟩)

theorem correctedType_eq_verb_iff : correctedType heap rs = some "verb" ↔
    (∃ r ∈ rs, (heap.uriOf r).name ∈ ["actionConcept", "desireConcept"]) ∧
      ¬ ∃ r ∈ rs, (heap.uriOf r).name ∈ ["subjectConcept", "objectConcept"] := by
  refine Iff.trans ?_ (and_congr (exists_named_iff "action" "desire")
    (not_congr (exists_named_iff "subject" "object"))).symm
  unfold correctedType
  split_ifs with subject object action desire polite
  · exact iff_of_false (by decide) fun both => both.2 (Or.inl subject)
  · exact iff_of_false (by decide) fun both => both.2 (Or.inr object)
  · exact iff_of_true rfl ⟨Or.inl action, not_or.mpr ⟨subject, object⟩⟩
  · exact iff_of_true rfl ⟨Or.inr desire, not_or.mpr ⟨subject, object⟩⟩
  all_goals exact iff_of_false (by decide) fun both => both.1.elim action desire

/-- The climb from a concept tells the category when the names above it do. -/
theorem correctedType_eq_partOfSpeech_iff
    (climbed : mostGenericGeneralisation heap stack c = some rs) (category : Category) :
    correctedType heap rs = some category.partOfSpeech ↔ Tells heap c category := by
  have named : ∀ names, (∃ r ∈ rs, (heap.uriOf r).name ∈ names) ↔ NamedAbove heap c names := by
    intro names
    simp only [NamedAbove, mem_mostGenericGeneralisation_iff climbed]
  cases category with
  | subject => exact correctedType_eq_noun_iff.trans (named _)
  | object => exact correctedType_eq_noun_iff.trans (named _)
  | action => exact correctedType_eq_verb_iff.trans (and_congr (named _) (not_congr (named _)))

theorem tells_congr (same : ∀ r, heap.MostGeneric c r ↔ heap.MostGeneric k r)
    (category : Category) : Tells heap c category ↔ Tells heap k category := by
  have named : ∀ names, NamedAbove heap c names ↔ NamedAbove heap k names := fun names =>
    exists_congr fun r => and_congr_left fun _ => same r
  cases category with
  | subject => exact named _
  | object => exact named _
  | action => exact and_congr (named _) (not_congr (named _))

section

variable {morphy : MorphyKB} {word : String} {phrase : PhraseRef}
  (found : searchWord heap word morphy.sentences = [phrase])
  (single : (heap.phrase phrase).concepts = [c])

include found single

/-- The lookup of a word in one phrase with one concept. -/
theorem morph_eq (wordNet : String → Morphed) : morph heap wordNet stack morphy word =
    match mostGenericGeneralisation heap stack c with
    | none => .error .stackOverflow
    | some rs =>
        match correctedType heap rs with
        | some type => .ok { wordNet word with features := [(type, word)] }
        | none => .ok (wordNet word) := by
  simp only [morph, found, single, List.mapM_cons, List.mapM_nil]
  cases mostGenericGeneralisation heap stack c with
  | none => rfl
  | some rs =>
    have flat : [rs].flatten = rs := List.flatten_singleton
    change (match correctedType heap [rs].flatten with
      | some type => _
      | none => _) = _
    rw [flat]

/-- The word gets the root of the category exactly when the climb from the concept fits on the
stack, and the most generic names above the first concept of the chain tell the category. -/
theorem givesOneRoot_iff (built : heap.BuiltBelow k c) (category : Category) :
    GivesOneRoot heap stack morphy word category ↔
      ¬ HasWalk heap.generalisationsList (stack + 1) c ∧ Tells heap k category := by
  rw [← isSome_mostGenericGeneralisation_iff,
    ← tells_congr (fun _ => built.mostGeneric_iff) category]
  unfold GivesOneRoot
  simp only [morph_eq found single]
  -- a dictionary that does not have the word tells what the lookup adds
  let unknown : String → Morphed := fun word => { original := word }
  cases climbed : mostGenericGeneralisation heap stack c with
  | none =>
    refine iff_of_false (fun gives => ?_) fun fits => Bool.false_ne_true fits.1
    cases gives unknown
  | some rs =>
    rw [← correctedType_eq_partOfSpeech_iff climbed, Option.isSome_some, and_iff_right rfl]
    dsimp only
    cases correctedType heap rs with
    | none =>
      refine iff_of_false (fun gives => ?_) fun told => nomatch told
      have features := congrArg Morphed.features (Except.ok.inj (gives unknown))
      cases features
    | some type =>
      rw [Option.some_inj]
      constructor
      · intro gives
        have features := congrArg Morphed.features (Except.ok.inj (gives unknown))
        exact congrArg Prod.fst (List.head_eq_of_cons_eq features)
      · rintro rfl _
        rfl

end

/-! ### The predefined concepts -/

/-- What a program makes, with a phrase for the concept that it returns. -/
def annotated (program : GraphProgram ConceptRef) : Heap :=
  match program.run {} with
  | .ok concept heap => { heap with
      phrases := .ofList [{ text := "browser", concepts := [concept] }] }
  | .error _ heap => heap

/-- The subject is a concept without generalisations here. -/
def genericSubject : Heap := annotated do
  let subject ← Concept.create "subject"
  Concept.createSubConcept subject "browser"

/-- The subject is below the concept, as it is predefined. -/
def predefinedSubject : Heap := annotated do
  let concept ← Concept.create "concept"
  let subject ← Concept.createSubConcept concept "subject"
  Concept.createSubConcept subject "browser"

/-- A sentence with the annotated word. -/
def browserKB : MorphyKB where
  sentences := [{ text := "browser", phrases := [0] }]

/-- The browser is a noun below a generic subject. -/
theorem browser_noun : GivesOneRoot genericSubject 8 browserKB "browser" .subject := by
  have below : genericSubject.BuiltBelow 0 1 := .single (by decide +kernel)
  have found : searchWord genericSubject "browser" browserKB.sentences = [0] := by decide +kernel
  refine (givesOneRoot_iff found (by decide +kernel) below .subject).mpr
    ⟨fun walk => ?_, 0, ⟨ReflTransGen.refl, by decide +kernel⟩, by decide +kernel⟩
  obtain ⟨g, general, g', none, -⟩ := walk.of_le (by decide : 2 ≤ 8 + 1)
  have roots : ∀ g ∈ genericSubject.generalisationsList 1,
      genericSubject.generalisationsList g = [] := by decide +kernel
  rw [roots g general] at none
  cases none

/-- It keeps the features of the dictionary below the predefined one. -/
theorem browser_not_noun :
    searchWord predefinedSubject "browser" browserKB.sentences = [0] ∧
      (predefinedSubject.phrase 0).concepts = [2] ∧ predefinedSubject.BuiltBelow 1 2 ∧
      (predefinedSubject.uriOf 1).name = "subject" ∧
      ¬ GivesOneRoot predefinedSubject 8 browserKB "browser" .subject := by
  refine ⟨by decide +kernel, by decide +kernel, .single (by decide +kernel), by decide +kernel,
    fun gives => ?_⟩
  have looked := gives fun word => { original := word }
  revert looked
  decide +kernel

end MorphyKB

end ThinkingUnderstanding
