import ThinkingUnderstanding.Context.MergeLaws
import ThinkingUnderstanding.Model.Heap
import ThinkingUnderstanding.Semantics.HashedCollections

/-!
# The hash codes of case classes

`Concept`, `TypedKLine`, `AnnotatedPhrase` and `ConceptLink` are case classes without a
`hashCode` of their own, so that the derived one hashes all constructor fields. It recurses
through the object graph and keeps no record of the objects it has been at. The other classes
of objects are hashed by identity.

Two concepts are equal only if their lines of knowledge are, whose URIs are compared by
identity. Equality of concepts and of phrases is therefore equality of references here.

The recursion is modelled on a stack of bounded depth. How the hashes of the fields are mixed
is a parameter. The lines of knowledge of links and the links of phrases are left out.

## Main definitions

* `HashedObject`, `HashedObject.fields` — the graph the hash code recurses through
* `hashCode`, `HashTerminates`
* `Concept.linkedConcepts`, `ContextHelper.mergeHashed` — the methods that hash concepts

## Main results

* `hashTerminates_iff_acc` — what has a hash code
* `exists_isSome_linkedConcepts_iff`, `exists_isSome_mergeHashed_iff` — when the methods return
* `mergeHashed_eq_some` — a merge that returns is `ContextHelper.mergeWithBaseContext`
* `mergeHashed_cons_self` — a base among the contexts merged onto it makes no difference
-/

namespace ThinkingUnderstanding

open Math Semantics

/-- An object whose hash code is derived. -/
inductive HashedObject
  | concept (c : ConceptRef)
  | conceptLine (l : LineRef)
  | phraseLine (l : LineRef)
  | phrase (p : PhraseRef)
  | link (l : LinkRef)
  deriving DecidableEq, Repr

/-- The fields of an object whose hash codes are derived too, those in its collections
included. -/
def HashedObject.fields (heap : Heap) : HashedObject → List HashedObject
  | concept c =>
      (heap.concept c).generalisations.toList.map conceptLine ++
      (heap.concept c).specialisations.toList.map conceptLine ++
      (heap.concept c).phrases.toList.map phraseLine ++
      (heap.concept c).conceptLinks.map link
  | conceptLine l => (heap.conceptLines.get l).values.map concept
  | phraseLine l => (heap.phraseLines.get l).values.map phrase
  | phrase p => (heap.phrase p).phrases.map phrase ++ (heap.phrase p).concepts.map concept
  | link l => [concept (heap.link l).source, concept (heap.link l).destination]

section HashCode

variable (mix : HashedObject → List Int32 → Int32) (heap : Heap)

/-- The derived `hashCode`, on a stack of the given depth. -/
def hashCode : ℕ → HashedObject → Option Int32
  | 0, _ => none
  | stack + 1, o => ((o.fields heap).mapM (hashCode stack)).map (mix o)

/-- Some stack is deep enough for the hash code of the object. -/
def HashTerminates (o : HashedObject) : Prop := ∃ stack, (hashCode mix heap stack o).isSome

variable {mix heap} {stack : ℕ} {o : HashedObject}

theorem isSome_hashCode_iff :
    (hashCode mix heap stack o).isSome ↔ ¬ HasWalk (HashedObject.fields heap) stack o := by
  apply isSome_iff_not_hasWalk
  · exact fun _ => rfl
  · intro n a
    rw [hashCode, Option.isSome_map]
    exact isSome_mapM_iff

/-- The objects with a hash code are those from which no infinite chain of fields starts. -/
theorem hashTerminates_iff_acc :
    HashTerminates mix heap o ↔ Acc (fun b a => b ∈ HashedObject.fields heap a) o := by
  rw [← exists_not_hasWalk_iff_acc]
  exact exists_congr fun _ => isSome_hashCode_iff

/-- For finitely many objects there is a stack that is deep enough for all of them. -/
theorem exists_forall_isSome_hashCode_iff {os : List HashedObject} :
    (∃ stack, ∀ o ∈ os, (hashCode mix heap stack o).isSome) ↔
      ∀ o ∈ os, HashTerminates mix heap o := by
  simp only [isSome_hashCode_iff, hashTerminates_iff_acc]
  exact exists_forall_not_hasWalk_iff_acc

end HashCode

namespace Concept

/-- The other ends of the links of a concept. -/
def linkedEnds (heap : Heap) (c : ConceptRef) : List ConceptRef :=
  (heap.linksOf c).map fun l => if l.destination = c then l.source else l.destination

/-- `Concept.linkedConcepts`. -/
def linkedConcepts (hash : HashedObject → Option Int32) (heap : Heap) (c : ConceptRef) :
    Option (List ConceptRef) :=
  toSet (fun d => hash (.concept d)) (linkedEnds heap c)

/-- The linked concepts are found when there are few of them, or each has a hash code. -/
theorem exists_isSome_linkedConcepts_iff {mix : HashedObject → List Int32 → Int32} {heap : Heap}
    {c : ConceptRef} : (∃ stack, (linkedConcepts (hashCode mix heap stack) heap c).isSome) ↔
      (linkedEnds heap c).toFinset.card ≤ 4 ∨
        ∀ d ∈ linkedEnds heap c, HashTerminates mix heap (.concept d) := by
  have all : ∀ stack, (linkedConcepts (hashCode mix heap stack) heap c).isSome ↔
      (linkedEnds heap c).toFinset.card ≤ 4 ∨
        ∀ o ∈ (linkedEnds heap c).map HashedObject.concept, (hashCode mix heap stack o).isSome := by
    intro stack
    rw [List.forall_mem_map]
    exact isSome_toSet_iff _
  rw [exists_congr all, exists_or, exists_const, exists_forall_isSome_hashCode_iff,
    List.forall_mem_map]

end Concept

namespace ContextHelper

variable {C P : Type} [DecidableEq C] [DecidableEq P]

/-- `ContextHelper.mergeWithBaseContext`, which removes repetitions with the help of hash
codes. -/
def mergeHashed (hashConcept : C → Option Int32) (hashPhrase : P → Option Int32)
    (baseContext : ShortTermMemory C P) (supplementalContexts : List (ShortTermMemory C P)) :
    Option (ShortTermMemory C P) := do
  let contexts := baseContext :: supplementalContexts
  let notUnderstoodPhrases ← distinct hashPhrase (contexts.flatMap (·.notUnderstoodPhrases))
  let notUnderstoodConcepts ← distinct hashConcept (contexts.flatMap (·.notUnderstoodConcepts))
  return { mergeWithBaseContext baseContext supplementalContexts with
    notUnderstoodPhrases, notUnderstoodConcepts }

variable {hashConcept : C → Option Int32} {hashPhrase : P → Option Int32}
  {baseContext : ShortTermMemory C P} {supplementalContexts : List (ShortTermMemory C P)}

theorem isSome_mergeHashed_iff :
    (mergeHashed hashConcept hashPhrase baseContext supplementalContexts).isSome ↔
      (∀ context ∈ baseContext :: supplementalContexts,
        ∀ p ∈ context.notUnderstoodPhrases, (hashPhrase p).isSome) ∧
      ∀ context ∈ baseContext :: supplementalContexts,
        ∀ c ∈ context.notUnderstoodConcepts, (hashConcept c).isSome := by
  rw [mergeHashed, ← List.forall_mem_flatMap, ← List.forall_mem_flatMap,
    ← isSome_distinct_iff hashPhrase, ← isSome_distinct_iff hashConcept]
  cases distinct hashPhrase _ with
  | none => simp
  | some phrases => cases distinct hashConcept _ <;> simp

/-- A merge returns on some stack when all that was not understood has a hash code. -/
theorem exists_isSome_mergeHashed_iff {mix : HashedObject → List Int32 → Int32} {heap : Heap}
    {baseContext : ShortTermMemory ConceptRef PhraseRef}
    {supplementalContexts : List (ShortTermMemory ConceptRef PhraseRef)} :
    (∃ stack, (mergeHashed (fun c => hashCode mix heap stack (.concept c))
      (fun p => hashCode mix heap stack (.phrase p)) baseContext supplementalContexts).isSome) ↔
      (∀ context ∈ baseContext :: supplementalContexts,
        ∀ p ∈ context.notUnderstoodPhrases, HashTerminates mix heap (.phrase p)) ∧
      ∀ context ∈ baseContext :: supplementalContexts,
        ∀ c ∈ context.notUnderstoodConcepts, HashTerminates mix heap (.concept c) := by
  let contexts := baseContext :: supplementalContexts
  let phrases := (contexts.flatMap (·.notUnderstoodPhrases)).map HashedObject.phrase
  let concepts := (contexts.flatMap (·.notUnderstoodConcepts)).map HashedObject.concept
  have all : ∀ stack, (mergeHashed (fun c => hashCode mix heap stack (.concept c))
      (fun p => hashCode mix heap stack (.phrase p)) baseContext supplementalContexts).isSome ↔
        ∀ o ∈ phrases ++ concepts, (hashCode mix heap stack o).isSome := by
    intro stack
    rw [isSome_mergeHashed_iff, List.forall_mem_append, List.forall_mem_map, List.forall_mem_map,
      List.forall_mem_flatMap, List.forall_mem_flatMap]
  rw [exists_congr all, exists_forall_isSome_hashCode_iff, List.forall_mem_append,
    List.forall_mem_map, List.forall_mem_map, List.forall_mem_flatMap, List.forall_mem_flatMap]

/-- A merge that returns is the one that compares all elements with each other. -/
theorem mergeHashed_eq_some
    (returns : (mergeHashed hashConcept hashPhrase baseContext supplementalContexts).isSome) :
    mergeHashed hashConcept hashPhrase baseContext supplementalContexts =
      some (mergeWithBaseContext baseContext supplementalContexts) := by
  rw [isSome_mergeHashed_iff, ← List.forall_mem_flatMap, ← List.forall_mem_flatMap] at returns
  rw [mergeHashed, distinct_eq_some hashPhrase returns.1, distinct_eq_some hashConcept returns.2]
  rfl

/-- A base that comes first among the contexts merged onto it needs no more hash codes. -/
theorem mergeHashed_cons_self (some : supplementalContexts ≠ []) :
    mergeHashed hashConcept hashPhrase baseContext (baseContext :: supplementalContexts) =
      mergeHashed hashConcept hashPhrase baseContext supplementalContexts := by
  have alike : (mergeHashed hashConcept hashPhrase baseContext
      (baseContext :: supplementalContexts)).isSome ↔
        (mergeHashed hashConcept hashPhrase baseContext supplementalContexts).isSome := by
    rw [isSome_mergeHashed_iff, isSome_mergeHashed_iff]
    simp only [List.forall_mem_cons, and_self_left]
  by_cases returns : (mergeHashed hashConcept hashPhrase baseContext supplementalContexts).isSome
  · rw [mergeHashed_eq_some returns, mergeHashed_eq_some (alike.mpr returns),
      mergeWithBaseContext_cons_self baseContext some]
  · rw [Option.not_isSome_iff_eq_none.mp returns,
      Option.not_isSome_iff_eq_none.mp (mt alike.mp returns)]

end ContextHelper

end ThinkingUnderstanding
