import Mathlib.Logic.Relation
import ThinkingUnderstanding.Math.Descent
import ThinkingUnderstanding.Model.Heap

/-!
# Generalisations of a concept

`Concept.getGeneralisationsRec` collects the generalisations of a concept, those of its
generalisations, and so on. It recurses without a list of what it has seen, so it needs
as much stack as the generalisations are deep, and overflows on a cycle. The recursions
here take the depth the stack allows and return nothing when it is exceeded.

## Main definitions

* `KnowledgeURI.equals`, `KnowledgeURI.exactEquals` — the comparisons of URIs by content
* `Heap.Ancestor` — reflexive and transitive generalisation
* `Heap.getGeneralisationsRec`, `Heap.getGeneralisations`
* `Heap.hasGeneralisationRec`, `Heap.hasExactGeneralisationRec`

## Main results

* `Heap.isSome_getGeneralisationsRec_iff` — the stack suffices unless there is a long chain
* `Heap.mem_getGeneralisationsRec_iff` — what is collected
* `Heap.hasExactGeneralisationRec_eq` — the comparison does not depend on its argument
-/

namespace ThinkingUnderstanding

open Math Relation

/-- `KnowledgeURI.equals(aUri)`: name and revision by content, namespace by identity. -/
def KnowledgeURI.equals (uri aUri : KnowledgeURI) : Bool :=
  uri.name = aUri.name ∧ uri.namespace_ = aUri.namespace_ ∧ uri.revision = aUri.revision

/-- `KnowledgeURI.exactEquals(aUri)`: the comparison of the uids is commented out. -/
def KnowledgeURI.exactEquals (uri aUri : KnowledgeURI) : Bool :=
  uri.name = aUri.name ∧ uri.namespace_ = aUri.namespace_ ∧ uri.revision = aUri.revision

namespace Heap

variable (heap : Heap)

/-- The URI object of a concept. -/
def uriOf (c : ConceptRef) : KnowledgeURI := heap.uri (heap.concept c).uri

/-- `Concept.generalisationsList`. -/
def generalisationsList (c : ConceptRef) : List ConceptRef := (heap.generalisations c).values

/-- A concept, or what it is generalised to in some number of steps. -/
def Ancestor (c ancestor : ConceptRef) : Prop :=
  ReflTransGen (fun a b => b ∈ heap.generalisationsList a) c ancestor

/-- `Concept.getGeneralisationsRec`, on a stack of the given depth. -/
def getGeneralisationsRec : ℕ → ConceptRef → Option (List ConceptRef)
  | 0, _ => none
  | depth + 1, c => do
      let res ← (heap.generalisations c).values.mapM (getGeneralisationsRec depth)
      return res.flatten ++ (heap.generalisations c).values

/-- `Concept.getGeneralisations(c)`, called on `concept`: the generalisations appended at
the end are those of `concept`, not those of `c`. -/
def getGeneralisations (depth : ℕ) (concept c : ConceptRef) : Option (List ConceptRef) := do
  let res ← (heap.generalisations c).values.mapM (heap.getGeneralisationsRec depth)
  return res.flatten ++ (heap.generalisations concept).values

/-- `Concept.hasGeneralisationRec(parent)`. -/
def hasGeneralisationRec (depth : ℕ) (concept parent : ConceptRef) : Option Bool := do
  let generalisations ← heap.getGeneralisationsRec depth concept
  let res := generalisations.filter fun c => (heap.uriOf c).equals (heap.uriOf parent)
  return res.length > 0

/-- `Concept.hasExactGeneralisationRec(parent)`. -/
def hasExactGeneralisationRec (depth : ℕ) (concept parent : ConceptRef) : Option Bool := do
  let gen ← heap.getGeneralisations depth concept parent
  let generalisations ← heap.getGeneralisationsRec depth concept
  let res := generalisations.filter fun c =>
    (gen.filter fun g => (heap.uriOf c).exactEquals (heap.uriOf g)).length > 0
  return res.length > 0

variable {heap} {depth : ℕ} {c concept parent : ConceptRef}

/-- Only objects that exist have generalisations. -/
theorem generalisationsList_of_size_le (beyond : heap.concepts.size ≤ c) :
    heap.generalisationsList c = [] := by
  rw [generalisationsList, generalisations, concept_of_size_le beyond]
  rfl

/-- The recursion fits on the stack unless a chain of generalisations is as long as the
stack is deep. -/
theorem isSome_getGeneralisationsRec_iff :
    (heap.getGeneralisationsRec depth c).isSome ↔
      ¬ HasWalk heap.generalisationsList depth c := by
  apply isSome_iff_not_hasWalk
  · exact fun _ => rfl
  · intro depth c
    rw [getGeneralisationsRec, generalisationsList, ← isSome_mapM_iff]
    cases (heap.generalisations c).values.mapM (heap.getGeneralisationsRec depth) <;> rfl

theorem isSome_getGeneralisations_iff (concept : ConceptRef) :
    (heap.getGeneralisations depth concept c).isSome ↔
      ¬ HasWalk heap.generalisationsList (depth + 1) c := by
  rw [← isSome_getGeneralisationsRec_iff, getGeneralisationsRec, getGeneralisations]
  cases (heap.generalisations c).values.mapM (heap.getGeneralisationsRec depth) <;> rfl

/-- What is closed under generalisation contains the ancestors of its concepts. -/
theorem Ancestor.mem_of_closed {ancestor : ConceptRef} {among : List ConceptRef}
    (up : heap.Ancestor c ancestor)
    (closed : ∀ a ∈ among, ∀ b ∈ heap.generalisationsList a, b ∈ among) (member : c ∈ among) :
    ancestor ∈ among := by
  induction up with
  | refl => exact member
  | tail _ step ih => exact closed _ ih _ step

theorem ancestor_iff {ancestor : ConceptRef} :
    heap.Ancestor c ancestor ↔
      c = ancestor ∨ ∃ g ∈ heap.generalisationsList c, heap.Ancestor g ancestor :=
  ReflTransGen.cases_head_iff

/-- What is collected are the generalisations of a concept and their ancestors. -/
theorem mem_getGeneralisationsRec_iff {collected : List ConceptRef} {ancestor : ConceptRef}
    (result : heap.getGeneralisationsRec depth concept = some collected) :
    ancestor ∈ collected ↔
      ∃ g ∈ heap.generalisationsList concept, heap.Ancestor g ancestor := by
  induction depth generalizing concept collected with
  | zero => cases result
  | succ depth ih =>
    obtain ⟨res, hres, same⟩ := Option.bind_eq_some_iff.mp result
    obtain rfl := Option.some.inj same
    -- the collection of each direct generalisation is known by induction
    have above : ∀ g ∈ heap.generalisationsList concept, ∃ found,
        heap.getGeneralisationsRec depth g = some found ∧
          (ancestor ∈ found ↔ ∃ g' ∈ heap.generalisationsList g, heap.Ancestor g' ancestor) := by
      intro g member
      have defined := isSome_mapM_iff.mp (hres ▸ rfl : ((heap.generalisations concept).values.mapM
        (heap.getGeneralisationsRec depth)).isSome)
      obtain ⟨found, has⟩ := Option.isSome_iff_exists.mp (defined g member)
      exact ⟨found, has, ih has⟩
    rw [List.mem_append, List.mem_flatten]
    constructor
    · rintro (⟨found, inside, member⟩ | direct)
      · obtain ⟨g, general, has⟩ := (mem_mapM_iff hres).mp inside
        obtain ⟨found', has', iff⟩ := above g general
        rw [has, Option.some_inj] at has'
        exact ⟨g, general, ancestor_iff.mpr (Or.inr (iff.mp (has' ▸ member)))⟩
      · exact ⟨ancestor, direct, ReflTransGen.refl⟩
    · rintro ⟨g, general, up⟩
      rcases ancestor_iff.mp up with rfl | higher
      · exact Or.inr general
      · obtain ⟨found, has, iff⟩ := above g general
        exact Or.inl ⟨found, (mem_mapM_iff hres).mpr ⟨g, general, has⟩, iff.mpr higher⟩

/-- What is collected includes the generalisations of the concept itself. -/
theorem mem_of_getGeneralisationsRec_eq {collected : List ConceptRef} {g : ConceptRef}
    (result : heap.getGeneralisationsRec depth concept = some collected)
    (member : g ∈ heap.generalisationsList concept) : g ∈ collected := by
  cases depth with
  | zero => cases result
  | succ depth =>
    obtain ⟨res, -, same⟩ := Option.bind_eq_some_iff.mp result
    obtain rfl := Option.some.inj same
    exact List.mem_append_right _ member

/-- What is collected for another concept includes them too. -/
theorem mem_of_getGeneralisations_eq {collected : List ConceptRef} {g : ConceptRef}
    (result : heap.getGeneralisations depth concept c = some collected)
    (member : g ∈ heap.generalisationsList concept) : g ∈ collected := by
  obtain ⟨res, -, same⟩ := Option.bind_eq_some_iff.mp result
  obtain rfl := Option.some.inj same
  exact List.mem_append_right _ member

/-- Without generalisations nothing is collected. -/
theorem getGeneralisationsRec_eq_nil {collected : List ConceptRef}
    (root : heap.generalisationsList concept = [])
    (result : heap.getGeneralisationsRec depth concept = some collected) : collected = [] := by
  cases depth with
  | zero => cases result
  | succ depth =>
    rw [generalisationsList] at root
    rw [getGeneralisationsRec, root] at result
    exact (Option.some.inj result).symm

theorem isSome_hasExactGeneralisationRec_iff :
    (heap.hasExactGeneralisationRec depth concept parent).isSome ↔
      ¬ HasWalk heap.generalisationsList (depth + 1) parent ∧
        ¬ HasWalk heap.generalisationsList depth concept := by
  rw [← isSome_getGeneralisations_iff concept, ← isSome_getGeneralisationsRec_iff,
    hasExactGeneralisationRec]
  cases heap.getGeneralisations depth concept parent with
  | none => exact iff_of_false Bool.false_ne_true fun both => Bool.false_ne_true both.1
  | some gen =>
    cases heap.getGeneralisationsRec depth concept with
    | none => exact iff_of_false Bool.false_ne_true fun both => Bool.false_ne_true both.2
    | some generalisations => exact iff_of_true rfl ⟨rfl, rfl⟩

/-- `getGeneralisations` appends the generalisations of the concept it is called on, so
these are in both lists: the comparison holds for every parent as soon as the concept has
a generalisation, and for none otherwise. -/
theorem hasExactGeneralisationRec_eq
    (fits : (heap.hasExactGeneralisationRec depth concept parent).isSome) :
    heap.hasExactGeneralisationRec depth concept parent =
      some (decide (heap.generalisationsList concept ≠ [])) := by
  obtain ⟨small, short⟩ := isSome_hasExactGeneralisationRec_iff.mp fits
  obtain ⟨gen, hgen⟩ := Option.isSome_iff_exists.mp
    ((isSome_getGeneralisations_iff concept).mpr small)
  obtain ⟨generalisations, hgens⟩ :=
    Option.isSome_iff_exists.mp (isSome_getGeneralisationsRec_iff.mpr short)
  have value : heap.hasExactGeneralisationRec depth concept parent =
      some (decide ((generalisations.filter fun c => (gen.filter fun g =>
        (heap.uriOf c).exactEquals (heap.uriOf g)).length > 0).length > 0)) := by
    rw [hasExactGeneralisationRec, hgen, hgens]
    rfl
  rw [value, Option.some_inj, decide_eq_decide, gt_iff_lt, List.length_pos_iff_exists_mem]
  constructor
  · rintro ⟨c, member⟩ root
    rw [getGeneralisationsRec_eq_nil root hgens] at member
    cases member
  · intro some
    obtain ⟨g, member⟩ := List.exists_mem_of_ne_nil _ some
    refine ⟨g, List.mem_filter.mpr ⟨mem_of_getGeneralisationsRec_eq hgens member, ?_⟩⟩
    rw [decide_eq_true_iff, gt_iff_lt, List.length_pos_iff_exists_mem]
    refine ⟨g, List.mem_filter.mpr ⟨mem_of_getGeneralisations_eq hgen member, ?_⟩⟩
    simp [KnowledgeURI.exactEquals]

end Heap

end ThinkingUnderstanding
