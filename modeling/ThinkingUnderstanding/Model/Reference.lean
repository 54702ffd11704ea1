import Mathlib.Algebra.Order.Field.Rat
import ThinkingUnderstanding.Math.InsertionMap

/-!
# Object references and the small value classes

The program keeps its knowledge in mutable objects, and most of its comparisons are
comparisons of references: `KnowledgeURI` overloads `equals` instead of overriding
it, so `==` on two URIs, and every `Map[KnowledgeURI, _]`, goes by object identity.
An object is therefore named by a reference, a number that stands for its identity.

## Main definitions

* `UriRef`, `ConceptRef`, `PhraseRef`, `LinkRef`, `NetworkRef` — identities of objects
* `TypedKLine` — the typed line of knowledge, a map keyed by URI objects
* `SelectorRequest`, `Narrative`, `Resource` — what a context holds
-/

namespace ThinkingUnderstanding

open Math

/-- The identity of a `KnowledgeURI` object. -/
abbrev UriRef := ℕ

/-- The identity of a `Concept` object. -/
abbrev ConceptRef := ℕ

/-- The identity of an `AnnotatedPhrase` object. -/
abbrev PhraseRef := ℕ

/-- The identity of a `ConceptLink` object. -/
abbrev LinkRef := ℕ

/-- The identity of a `ConceptNetwork` object. -/
abbrev NetworkRef := ℕ

/-- `Probability`: frequency and confidence, as exact numbers. -/
structure Probability where
  frequency : ℚ := 0
  confidence : ℚ := 1
  deriving DecidableEq, Repr, Inhabited

/-- `TypedKLine[τ]`: resources by the URI object they were filed under. -/
structure TypedKLine (τ : Type*) where
  frames : InsertionMap UriRef τ := .empty
  deriving DecidableEq, Inhabited

namespace TypedKLine

variable {τ : Type*}

/-- `TypedKLine.+`: file a resource under a URI. -/
def add (line : TypedKLine τ) (uri : UriRef) (resource : τ) : TypedKLine τ :=
  { line with frames := line.frames.insert uri resource }

/-- `TypedKLine.merge`: the frames of both lines, those of `other` winning. -/
def merge (line other : TypedKLine τ) : TypedKLine τ :=
  { line with frames := line.frames.union other.frames }

/-- The URIs under which the line files a resource. -/
def keys (line : TypedKLine τ) : List UriRef := line.frames.keys

/-- `TypedKLine.values`. -/
def values (line : TypedKLine τ) : List τ := line.frames.values

/-- `TypedKLine.size`. -/
def size (line : TypedKLine τ) : ℕ := line.frames.size

@[simp] theorem mem_keys_merge {line other : TypedKLine τ} {uri : UriRef} :
    uri ∈ (line.merge other).keys ↔ uri ∈ line.keys ∨ uri ∈ other.keys :=
  InsertionMap.mem_keys_union

theorem mem_values_iff {line : TypedKLine τ} {resource : τ} :
    resource ∈ line.values ↔ ∃ uri, (uri, resource) ∈ line.frames.entries := by
  simp [values, InsertionMap.values]

/-- Filing a resource brings in no other one. -/
theorem eq_or_mem_of_mem_values_add {line : TypedKLine τ} {uri : UriRef} {resource r : τ}
    (member : r ∈ (line.add uri resource).values) : r = resource ∨ r ∈ line.values := by
  obtain ⟨u, entry⟩ := mem_values_iff.mp member
  rcases InsertionMap.mem_entries_insert.mp entry with ⟨-, same⟩ | ⟨-, old⟩
  · exact Or.inl same
  · exact Or.inr (mem_values_iff.mpr ⟨u, old⟩)

/-- What has just been filed is among the values. -/
theorem mem_values_add_self (line : TypedKLine τ) (uri : UriRef) (resource : τ) :
    resource ∈ (line.add uri resource).values :=
  mem_values_iff.mpr ⟨uri, InsertionMap.mem_entries_insert.mpr (Or.inl ⟨rfl, rfl⟩)⟩

theorem values_add_ne_nil (line : TypedKLine τ) (uri : UriRef) (resource : τ) :
    (line.add uri resource).values ≠ [] :=
  List.ne_nil_of_mem (mem_values_add_self line uri resource)

/-- Under a URI that files nothing yet, a resource is added to those that are filed. -/
theorem mem_values_add_iff_of_notMem {line : TypedKLine τ} {uri : UriRef}
    (fresh : uri ∉ line.keys) {resource r : τ} :
    r ∈ (line.add uri resource).values ↔ r = resource ∨ r ∈ line.values := by
  refine ⟨eq_or_mem_of_mem_values_add, fun present => mem_values_iff.mpr ?_⟩
  rcases present with same | old
  · exact ⟨uri, InsertionMap.mem_entries_insert.mpr (Or.inl ⟨rfl, same⟩)⟩
  · obtain ⟨u, entry⟩ := mem_values_iff.mp old
    have other : u ≠ uri := fun same => fresh (same ▸ List.mem_map_of_mem entry)
    exact ⟨u, InsertionMap.mem_entries_insert.mpr (Or.inr ⟨other, entry⟩)⟩

/-- To file a resource under its URI again changes nothing. -/
theorem mem_entries_add_of_mem {line : TypedKLine τ} {uri : UriRef} {resource : τ}
    (filed : (uri, resource) ∈ line.frames.entries) {entry : UriRef × τ} :
    entry ∈ (line.add uri resource).frames.entries ↔ entry ∈ line.frames.entries := by
  obtain ⟨u, r⟩ := entry
  rw [add, InsertionMap.mem_entries_insert]
  constructor
  · rintro (⟨rfl, rfl⟩ | ⟨-, old⟩)
    · exact filed
    · exact old
  · intro old
    by_cases same : u = uri
    · subst same
      exact Or.inl ⟨rfl, InsertionMap.eq_of_mem_entries old filed⟩
    · exact Or.inr ⟨same, old⟩

end TypedKLine

/-- `SelectorRequest`, a case class: two requests are equal when their fields are. -/
structure SelectorRequest where
  resourceURIList : List UriRef
  uri : UriRef
  probability : Probability := {}
  deriving DecidableEq, Repr

/-- `Narrative[α]`: a sequence of resources with a URI. -/
structure Narrative (α : Type*) where
  resources : List α
  uri : UriRef
  deriving DecidableEq, Repr

/-- A resource as the context code sees it. The code matches on selector requests
and concept networks; the classes it never looks into are `other`. -/
inductive Resource
  | selectorRequest (request : SelectorRequest)
  | conceptNetwork (network : NetworkRef) (uri : UriRef)
  | other (object : ℕ) (uri : UriRef)
  deriving DecidableEq, Repr

/-- `Resource.uri`. -/
def Resource.uri : Resource → UriRef
  | .selectorRequest request => request.uri
  | .conceptNetwork _ uri => uri
  | .other _ uri => uri

end ThinkingUnderstanding
