import ThinkingUnderstanding.Math.Acyclic
import ThinkingUnderstanding.Model.Generalisation

/-!
# Three ways of asking for an ancestor

A concept can be asked for its ancestors, for an ancestor with a URI, and a list of concepts
for those with an ancestor of a name. On a graph of generalisations without cycles all of these
return, for diamonds too. What is collected are the proper ancestors, and the search by name,
which stops at the first hit, selects the same concepts as the collection. The comparison that
is meant to be exact, `hasExactGeneralisationRec`, holds for concepts that are no ancestors.

## Main definitions

* `Heap.AcyclicGeneralisations` — no concept is its own ancestor
* `Heap.ProperAncestor` — what a concept is generalised to in one or more steps
* `Heap.FiledByURI` — generalisations are filed under the URIs of their concepts
* `Heap.DecidesAncestry` — `hasExactGeneralisationRec` returns, and tells ancestors from others
* `Heap.getNodeByGeneralisationNameRec` — the concepts with an ancestor of a name
* `Heap.FiledUnder`, `Heap.FiledAbove` — what the searches by name look for

## Main results

* `getGeneralisationsRec_ancestors` — the collection and the comparison of URIs
* `decidesAncestry_iff` — when the exact comparison is right
* `getNodeByGeneralisationNameRec_agrees` — the search by name
-/

namespace ThinkingUnderstanding

open Math Relation

namespace Heap

/-- What a concept is generalised to in one or more steps. -/
def ProperAncestor (heap : Heap) (c ancestor : ConceptRef) : Prop :=
  TransGen (fun a b => b ∈ heap.generalisationsList a) c ancestor

/-- No concept is its own ancestor. -/
def AcyclicGeneralisations (heap : Heap) : Prop := ∀ c, ¬ heap.ProperAncestor c c

/-- Every generalisation is filed under the URI of its concept. -/
def FiledByURI (heap : Heap) : Prop :=
  ∀ c, ∀ e ∈ (heap.generalisations c).frames.entries, e.1 = (heap.concept e.2).uri

/-- The exact comparison of a concept with a parent returns, and it holds exactly when the URI of
an ancestor equals that of the parent. -/
structure DecidesAncestry (heap : Heap) (concept parent : ConceptRef) : Prop where
  returns : ∃ depth, (heap.hasExactGeneralisationRec depth concept parent).isSome
  correct : ∀ depth result, heap.hasExactGeneralisationRec depth concept parent = some result →
    (result = true ↔ ∃ a, heap.ProperAncestor concept a ∧
      (heap.uriOf a).exactEquals (heap.uriOf parent))

/-- A generalisation of the concept is filed under a URI of the name. -/
def FiledUnder (heap : Heap) (name : String) (c : ConceptRef) : Prop :=
  ∃ e ∈ (heap.generalisations c).frames.entries, (heap.uri e.1).name = name

/-- A direct or indirect generalisation of the concept is filed under a URI of the name. -/
def FiledAbove (heap : Heap) (name : String) (c : ConceptRef) : Prop :=
  ∃ a, heap.Ancestor c a ∧ heap.FiledUnder name a

variable (heap : Heap)

/-- `ConceptNetwork.filterGeneralisations`, on a stack of the given depth. -/
def filterGeneralisations (name : String) :
    ℕ → TypedKLine ConceptRef → Option (List (UriRef × ConceptRef))
  | 0, _ => none
  | depth + 1, generalisations =>
      generalisations.frames.entries.filterM fun uriConcept =>
        if (heap.uri uriConcept.1).name = name then some true
        else (filterGeneralisations name depth (heap.generalisations uriConcept.2)).map
          fun filtered => filtered.length > 0

/-- `ConceptNetwork.getNodeByGeneralisationNameRec`. -/
def getNodeByGeneralisationNameRec (depth : ℕ) (nodes : List ConceptRef) (name : String) :
    Option (List ConceptRef) :=
  nodes.filterM fun concept => do
    let gens ← heap.filterGeneralisations name depth (heap.generalisations concept)
    return gens.length > 0

variable {heap} {c concept parent ancestor : ConceptRef} {depth : ℕ} {name : String}

/-! ### Ancestors -/

/-- A proper ancestor is an ancestor of a generalisation. -/
theorem properAncestor_iff :
    heap.ProperAncestor c ancestor ↔
      ∃ g ∈ heap.generalisationsList c, heap.Ancestor g ancestor :=
  TransGen.head'_iff

/-- What has a proper ancestor has a generalisation. -/
theorem ProperAncestor.generalisationsList_ne_nil (up : heap.ProperAncestor c ancestor) :
    heap.generalisationsList c ≠ [] := by
  obtain ⟨g, general, -⟩ := properAncestor_iff.mp up
  exact List.ne_nil_of_mem general

/-- Without cycles, no chain of generalisations goes on for ever. -/
theorem AcyclicGeneralisations.acc (acyclic : heap.AcyclicGeneralisations) (c : ConceptRef) :
    Acc (fun g c => g ∈ heap.generalisationsList c) c :=
  acc_of_acyclic_nat (fun _ => generalisationsList_of_size_le) fun c _ => acyclic c

/-- Some stack, and every deeper one, fits the chains above several concepts. -/
theorem AcyclicGeneralisations.exists_depth (acyclic : heap.AcyclicGeneralisations)
    (cs : List ConceptRef) : ∃ enough, ∀ depth ≥ enough, ∀ c ∈ cs,
      ¬ HasWalk heap.generalisationsList depth c := by
  obtain ⟨enough, short⟩ := exists_forall_not_hasWalk_iff_acc.mpr fun c (_ : c ∈ cs) =>
    acyclic.acc c
  exact ⟨enough, fun depth deep c member walk => short c member (walk.of_le deep)⟩

/-! ### What is collected -/

/-- The ancestors are collected, and compared by URI, on every stack that is deep enough. -/
theorem getGeneralisationsRec_ancestors (heap : Heap) (acyclic : heap.AcyclicGeneralisations)
    (concept : ConceptRef) : ∃ enough, ∀ depth ≥ enough,
      (∃ collected, heap.getGeneralisationsRec depth concept = some collected ∧
        ∀ a, a ∈ collected ↔ heap.ProperAncestor concept a) ∧
      ∀ parent, ∃ result, heap.hasGeneralisationRec depth concept parent = some result ∧
        (result = true ↔ ∃ a, heap.ProperAncestor concept a ∧
          (heap.uriOf a).equals (heap.uriOf parent)) := by
  obtain ⟨enough, fits⟩ := acyclic.exists_depth [concept]
  refine ⟨enough, fun depth deep => ?_⟩
  obtain ⟨collected, has⟩ := Option.isSome_iff_exists.mp
    (isSome_getGeneralisationsRec_iff.mpr (fits depth deep concept (List.mem_singleton_self _)))
  have ancestors : ∀ a, a ∈ collected ↔ heap.ProperAncestor concept a := fun a =>
    (mem_getGeneralisationsRec_iff has).trans properAncestor_iff.symm
  refine ⟨⟨collected, has, ancestors⟩, fun parent => ?_⟩
  have value : heap.hasGeneralisationRec depth concept parent = some (decide
      ((collected.filter fun a => (heap.uriOf a).equals (heap.uriOf parent)).length > 0)) := by
    rw [hasGeneralisationRec, has]
    rfl
  refine ⟨_, value, ?_⟩
  rw [decide_eq_true_iff, gt_iff_lt, List.length_pos_iff_exists_mem]
  simp only [List.mem_filter, ancestors]

/-! ### The exact comparison -/

/-- The exact comparison decides ancestry of a concept without generalisations, and of a
concept that does have the ancestor. -/
theorem decidesAncestry_iff (heap : Heap) (acyclic : heap.AcyclicGeneralisations)
    (concept parent : ConceptRef) :
    heap.DecidesAncestry concept parent ↔ heap.generalisationsList concept = [] ∨
      ∃ a, heap.ProperAncestor concept a ∧ (heap.uriOf a).exactEquals (heap.uriOf parent) := by
  obtain ⟨enough, fits⟩ := acyclic.exists_depth [concept, parent]
  have short := fits enough le_rfl
  have returns : (heap.hasExactGeneralisationRec enough concept parent).isSome := by
    refine isSome_hasExactGeneralisationRec_iff.mpr ⟨fun walk => ?_, short concept (by simp)⟩
    exact short parent (by simp) walk.of_succ
  constructor
  · intro decides
    by_cases root : heap.generalisationsList concept = []
    · exact Or.inl root
    · exact Or.inr ((decides.correct _ _ (hasExactGeneralisationRec_eq returns)).mp
        (decide_eq_true root))
  · intro condition
    refine ⟨⟨enough, returns⟩, fun depth result found => ?_⟩
    have value := hasExactGeneralisationRec_eq (Option.isSome_of_eq_some found)
    obtain rfl := Option.some.inj (found.symm.trans value)
    rw [decide_eq_true_iff]
    rcases condition with root | above
    · refine iff_of_false (not_not_intro root) ?_
      rintro ⟨a, up, -⟩
      exact up.generalisationsList_ne_nil root
    · refine iff_of_true ?_ above
      obtain ⟨a, up, -⟩ := above
      exact up.generalisationsList_ne_nil

/-! ### The search by name -/

theorem filedAbove_iff : heap.FiledAbove name c ↔
    ∃ e ∈ (heap.generalisations c).frames.entries,
      (heap.uri e.1).name = name ∨ heap.FiledAbove name e.2 := by
  constructor
  · rintro ⟨a, up, filed⟩
    rcases ancestor_iff.mp up with rfl | ⟨g, general, higher⟩
    · obtain ⟨e, member, named⟩ := filed
      exact ⟨e, member, Or.inl named⟩
    · obtain ⟨uri, member⟩ := TypedKLine.mem_values_iff.mp general
      exact ⟨(uri, g), member, Or.inr ⟨a, higher, filed⟩⟩
  · rintro ⟨e, member, named | ⟨a, higher, filed⟩⟩
    · exact ⟨c, ReflTransGen.refl, e, member, named⟩
    · have general : e.2 ∈ heap.generalisationsList c := TypedKLine.mem_values_iff.mpr ⟨e.1, member⟩
      exact ⟨a, ancestor_iff.mpr (Or.inr ⟨e.2, general, higher⟩), filed⟩

/-- Where the stack fits the chains above a concept, the search by name returns. -/
theorem filterGeneralisations_returns (name : String)
    (fits : ¬ HasWalk heap.generalisationsList depth c) :
    ∃ filtered, heap.filterGeneralisations name depth (heap.generalisations c) = some filtered ∧
      (0 < filtered.length ↔ heap.FiledAbove name c) := by
  classical
  induction depth generalizing c with
  | zero => exact absurd trivial fits
  | succ depth ih =>
    have passes : ∀ e ∈ (heap.generalisations c).frames.entries,
        (if (heap.uri e.1).name = name then some true
          else (heap.filterGeneralisations name depth (heap.generalisations e.2)).map
            fun filtered => decide (filtered.length > 0)) =
          some (decide ((heap.uri e.1).name = name ∨ heap.FiledAbove name e.2)) := by
      intro e member
      have general : e.2 ∈ heap.generalisationsList c := TypedKLine.mem_values_iff.mpr ⟨e.1, member⟩
      split
      case isTrue here => exact congrArg some (decide_eq_true (Or.inl here)).symm
      case isFalse other =>
        obtain ⟨filtered, has, found⟩ := ih fun walk => fits ⟨e.2, general, walk⟩
        rw [has, Option.map_some, Option.some_inj, decide_eq_decide, gt_iff_lt, found,
          or_iff_right other]
    refine ⟨_, filterM_eq_some passes, ?_⟩
    rw [List.length_pos_iff_exists_mem, filedAbove_iff]
    simp only [List.mem_filter, decide_eq_true_eq]

/-- Where generalisations are filed under the URIs of their concepts, what is looked for is an
ancestor of the name. -/
theorem filedAbove_iff_of_filedByURI (filed : heap.FiledByURI) :
    heap.FiledAbove name c ↔ ∃ a, heap.ProperAncestor c a ∧ (heap.uriOf a).name = name := by
  constructor
  · rintro ⟨a, up, e, member, named⟩
    have general : e.2 ∈ heap.generalisationsList a := TypedKLine.mem_values_iff.mpr ⟨e.1, member⟩
    rw [filed a e member] at named
    exact ⟨e.2, TransGen.tail' up general, named⟩
  · rintro ⟨b, up, named⟩
    obtain ⟨a, up, general⟩ := TransGen.tail'_iff.mp up
    obtain ⟨uri, member⟩ := TypedKLine.mem_values_iff.mp general
    have same : uri = (heap.concept b).uri := filed a (uri, b) member
    exact ⟨a, up, (uri, b), member, same ▸ named⟩

/-- The search above a concept returns when the stack fits the chains above it, and finds
something exactly when an ancestor has the name. -/
theorem filterGeneralisations_eq_some (filed : heap.FiledByURI) (name : String)
    (fits : ¬ HasWalk heap.generalisationsList depth c) :
    ∃ filtered, heap.filterGeneralisations name depth (heap.generalisations c) = some filtered ∧
      (0 < filtered.length ↔ ∃ a, heap.ProperAncestor c a ∧ (heap.uriOf a).name = name) := by
  obtain ⟨filtered, has, found⟩ := filterGeneralisations_returns name fits
  exact ⟨filtered, has, found.trans (filedAbove_iff_of_filedByURI filed)⟩

/-- On every stack that is deep enough, the concepts that are found by the name of an ancestor
are, in order, those for which a concept of that name is collected. -/
theorem getNodeByGeneralisationNameRec_agrees (heap : Heap) (acyclic : heap.AcyclicGeneralisations)
    (filed : heap.FiledByURI) (nodes : List ConceptRef) (name : String) :
    ∃ enough, ∀ depth ≥ enough, ∃ collected : ConceptRef → List ConceptRef,
      (∀ c ∈ nodes, heap.getGeneralisationsRec depth c = some (collected c)) ∧
        heap.getNodeByGeneralisationNameRec depth nodes name =
          some (nodes.filter fun c => ∃ a ∈ collected c, (heap.uriOf a).name = name) := by
  obtain ⟨enough, fits⟩ := acyclic.exists_depth nodes
  refine ⟨enough, fun depth deep => ?_⟩
  have short := fits depth deep
  let collected : ConceptRef → List ConceptRef := fun c =>
    (heap.getGeneralisationsRec depth c).getD []
  have returns : ∀ c ∈ nodes, heap.getGeneralisationsRec depth c = some (collected c) := by
    intro c member
    obtain ⟨found, has⟩ := Option.isSome_iff_exists.mp
      (isSome_getGeneralisationsRec_iff.mpr (short c member))
    simp only [collected, has, Option.getD_some]
  refine ⟨collected, returns, filterM_eq_some fun c member => ?_⟩
  obtain ⟨filtered, has, found⟩ := filterGeneralisations_eq_some filed name (short c member)
  rw [has]
  refine congrArg some (decide_eq_decide.mpr (found.trans ?_))
  refine exists_congr fun a => and_congr_left fun _ => ?_
  exact properAncestor_iff.trans (mem_getGeneralisationsRec_iff (returns c member)).symm

/-- A heap in which concepts are generalised to older ones has no cycle. -/
theorem acyclicGeneralisations_of_older {heap : Heap}
    (older : ∀ c < heap.concepts.size, ∀ g ∈ heap.generalisationsList c, g < c) :
    heap.AcyclicGeneralisations := by
  have step : ∀ c g, g ∈ heap.generalisationsList c → g < c := by
    intro c g general
    rcases lt_or_ge c heap.concepts.size with inside | beyond
    · exact older c inside g general
    · rw [generalisationsList_of_size_le beyond] at general
      cases general
  have all : ∀ c a, heap.ProperAncestor c a → a < c := by
    intro c a up
    induction up with
    | single general => exact step _ _ general
    | tail _ general ih => exact (step _ _ general).trans ih
  exact fun c cycle => Nat.lt_irrefl c (all c c cycle)

/-! ### A letter that is a form too -/

/-- A document, a letter and a form, which are documents, a form letter, and an engine. -/
def formLetter : Heap where
  concepts := .ofList [{ uri := 0 }, { uri := 1, generalisations := some 0 },
    { uri := 2, generalisations := some 1 }, { uri := 3, generalisations := some 2 }, { uri := 4 }]
  uris := .ofList [{ name := "document" }, { name := "letter" }, { name := "form" },
    { name := "formLetter" }, { name := "engine" }]
  conceptLines := .ofList [({} : TypedKLine ConceptRef).add 0 0,
    ({} : TypedKLine ConceptRef).add 0 0, (({} : TypedKLine ConceptRef).add 1 1).add 2 2]

theorem acyclic_formLetter : formLetter.AcyclicGeneralisations :=
  acyclicGeneralisations_of_older (by decide +kernel)

theorem filedByURI_formLetter : formLetter.FiledByURI := by
  intro c
  rcases lt_or_ge c formLetter.concepts.size with inside | beyond
  · have all : ∀ c < 5, ∀ e ∈ (formLetter.generalisations c).frames.entries,
        e.1 = (formLetter.concept e.2).uri := by decide +kernel
    exact all c inside
  · have none : (formLetter.generalisations c).values = [] := generalisationsList_of_size_le beyond
    intro e member
    have value : e.2 ∈ (formLetter.generalisations c).values :=
      TypedKLine.mem_values_iff.mpr ⟨e.1, member⟩
    rw [none] at value
    cases value

/-- Above the form letter are the letter, the form and the document. -/
theorem mem_of_properAncestor_formLetter {a : ConceptRef} (up : formLetter.ProperAncestor 3 a) :
    a ∈ [0, 1, 2] := by
  obtain ⟨g, general, up⟩ := properAncestor_iff.mp up
  have direct : ∀ g ∈ formLetter.generalisationsList 3, g ∈ [0, 1, 2] := by decide +kernel
  exact up.mem_of_closed (by decide +kernel) (direct g general)

theorem properAncestor_formLetter : formLetter.ProperAncestor 3 0 := by
  have letter : 1 ∈ formLetter.generalisationsList 3 := by decide +kernel
  have document : 0 ∈ formLetter.generalisationsList 1 := by decide +kernel
  exact .tail (.single letter) document

/-- The document is collected for the form letter, and the engine is not. -/
theorem formLetter_collected : ∃ depth collected,
    formLetter.getGeneralisationsRec depth 3 = some collected ∧ 0 ∈ collected ∧ 4 ∉ collected := by
  obtain ⟨depth, all⟩ := getGeneralisationsRec_ancestors formLetter acyclic_formLetter 3
  obtain ⟨⟨collected, has, ancestors⟩, -⟩ := all depth le_rfl
  refine ⟨depth, collected, has, (ancestors 0).mpr properAncestor_formLetter, fun engine => ?_⟩
  exact absurd (mem_of_properAncestor_formLetter ((ancestors 4).mp engine)) (by decide)

/-- The form letter is compared with the document as it should be. -/
theorem formLetter_document : formLetter.DecidesAncestry 3 0 :=
  (decidesAncestry_iff formLetter acyclic_formLetter 3 0).mpr
    (Or.inr ⟨0, properAncestor_formLetter, by decide⟩)

/-- The form letter can be generalised exactly to an engine, according to the comparison. -/
theorem formLetter_engine : formLetter.AcyclicGeneralisations ∧
    ¬ formLetter.DecidesAncestry 3 4 := by
  refine ⟨acyclic_formLetter, fun decides => ?_⟩
  have holds : formLetter.hasExactGeneralisationRec 5 3 4 = some true := by decide +kernel
  obtain ⟨a, up, same⟩ := (decides.correct 5 true holds).mp rfl
  have others : ∀ a ∈ [0, 1, 2], ¬ (formLetter.uriOf a).exactEquals (formLetter.uriOf 4) := by
    decide +kernel
  exact others a (mem_of_properAncestor_formLetter up) same

/-- The form letter is found by the name of the document, and the engine is not. -/
theorem formLetter_found : ∃ depth found,
    formLetter.getNodeByGeneralisationNameRec depth [4, 3] "document" = some found ∧
      3 ∈ found ∧ 4 ∉ found := by
  obtain ⟨depth, agrees⟩ := getNodeByGeneralisationNameRec_agrees formLetter acyclic_formLetter
    filedByURI_formLetter [4, 3] "document"
  obtain ⟨collected, returns, found⟩ := agrees depth le_rfl
  have ancestors : ∀ c ∈ [4, 3], ∀ a, a ∈ collected c ↔ formLetter.ProperAncestor c a :=
    fun c member a => (mem_getGeneralisationsRec_iff (returns c member)).trans
      properAncestor_iff.symm
  refine ⟨depth, _, found, ?_, ?_⟩
  · rw [List.mem_filter, decide_eq_true_iff]
    exact ⟨by decide, 0, (ancestors 3 (by decide) 0).mpr properAncestor_formLetter, by decide⟩
  · rw [List.mem_filter, decide_eq_true_iff]
    rintro ⟨-, a, collected', -⟩
    have root : formLetter.generalisationsList 4 = [] := by decide +kernel
    exact ((ancestors 4 (by decide) a).mp collected').generalisationsList_ne_nil root

end Heap

end ThinkingUnderstanding
