import ThinkingUnderstanding.Hierarchy.Acyclicity

/-!
# What a failed creation of domain concepts leaves

`Correlation.createDomainConcepts` gives a parent to one instance after the other, and then
turns instances into links. An exception ends it at the first concept that is no instance, or
at an instance that cannot be turned into a link. What has been done before is not undone:
the instances handled so far keep their parents, and the ends and the parents of the links
made so far keep these.

Nothing else changes. A link that has been added comes after those that were there; parents are
in a map, and a new one can come anywhere.

## Main definitions

* `Heap.Filed` — resources are filed under URIs that exist
* `Grown`, `Gained` — a list with new elements at its end, and entries of a map with new ones
* `LeftBehind` — what a failed creation leaves of the objects that existed
* `Unchanged` — nothing has changed

## Main results

* `Since.withParent`, `Since.withSubLink` — what the steps leave
* `leftBehind_of_error` — what a failed creation leaves
-/

namespace ThinkingUnderstanding

open Math Semantics Correlation

/-- Resources are filed under URIs that exist. -/
structure Heap.Filed (heap : Heap) : Prop where
  wellFormed : heap.WellFormed
  frames : ∀ line, ∀ u ∈ (heap.conceptLines.get line).keys, u < heap.uris.size
  linkFrames : ∀ l, ∀ u ∈ (heap.linesOfLink l).specialisations.keys, u < heap.uris.size

/-- The list has grown by new elements, if it may. -/
def Grown {α : Type*} (isNew : α → Prop) (may : Prop) (old now : List α) : Prop :=
  ∃ added, now = old ++ added ∧ (∀ a ∈ added, isNew a) ∧ (added ≠ [] → may)

/-- The entries of a map are the old ones, and new ones, if it may have got any. Where they stand
is not said: a map of more than four entries is not in the order of insertion. -/
def Gained {α : Type*} (isNew : α → Prop) (may : Prop) (old now : List α) : Prop :=
  ∃ added, now.Perm (old ++ added) ∧ (∀ a ∈ added, isNew a) ∧ (added ≠ [] → may)

/-- What a failed creation of domain concepts leaves of the objects that existed: instances
before the first other concept have got one new parent each time, and when there was no other
concept, links have been made. -/
structure LeftBehind (heap : Heap) (instances : List ConceptRef) (t : Heap) : Prop where
  generalisations : ∀ c < heap.concepts.size,
    Gained (fun parent : UriRef × ConceptRef => heap.concepts.size ≤ parent.2) True
      (heap.generalisations c).frames.entries (t.generalisations c).frames.entries ∧
    (t.generalisations c).size = (heap.generalisations c).size +
      (processed heap instances).countP fun d =>
        (heap.concept d).generalisations = (heap.concept c).generalisations
  specialisations : ∀ c < heap.concepts.size, t.specialisations c = heap.specialisations c
  links : ∀ c < heap.concepts.size,
    Grown (fun l : LinkRef => heap.links.size ≤ l) (∀ d ∈ instances, IsInstance heap d)
      (heap.concept c).conceptLinks (t.concept c).conceptLinks
  linkObjects : ∀ l < heap.links.size, t.link l = heap.link l
  linkGeneralisations : ∀ l < heap.links.size,
    (t.linesOfLink l).generalisations = (heap.linesOfLink l).generalisations
  linkSpecialisations : ∀ l < heap.links.size,
    Gained (fun it : UriRef × LinkRef => heap.links.size ≤ it.2)
      (∀ d ∈ instances, IsInstance heap d)
      (heap.linesOfLink l).specialisations.frames.entries
      (t.linesOfLink l).specialisations.frames.entries

/-- Generalisations, links and specialisations of the concepts and links that existed are as
they were. -/
structure Unchanged (heap t : Heap) : Prop where
  generalisations : ∀ c < heap.concepts.size, t.generalisations c = heap.generalisations c
  specialisations : ∀ c < heap.concepts.size, t.specialisations c = heap.specialisations c
  links : ∀ c < heap.concepts.size, (t.concept c).conceptLinks = (heap.concept c).conceptLinks
  linkObjects : ∀ l < heap.links.size, t.link l = heap.link l
  linkLines : ∀ l < heap.links.size, t.linesOfLink l = heap.linesOfLink l

/-- What is known of a heap while domain concepts are created from another one: `parented` have
got their parents, and links are made only if `reduces`. -/
structure Since (heap : Heap) (parented : List ConceptRef) (reduces : Prop) (t : Heap) :
    Prop where
  filed : t.Filed
  concepts_le : heap.concepts.size ≤ t.concepts.size
  lines_le : heap.conceptLines.size ≤ t.conceptLines.size
  uris_le : heap.uris.size ≤ t.uris.size
  links_le : heap.links.size ≤ t.links.size
  uris : ∀ u < heap.uris.size, t.uri u = heap.uri u
  linkObjects : ∀ l < heap.links.size, t.link l = heap.link l
  concepts : ∀ c < heap.concepts.size,
    t.concept c = { heap.concept c with conceptLinks := (t.concept c).conceptLinks }
  links : ∀ c < heap.concepts.size, Grown (fun l : LinkRef => heap.links.size ≤ l) reduces
    (heap.concept c).conceptLinks (t.concept c).conceptLinks
  frames : ∀ line < heap.conceptLines.size,
    Grown (fun parent : UriRef × ConceptRef => heap.concepts.size ≤ parent.2) True
      (heap.conceptLines.get line).frames.entries (t.conceptLines.get line).frames.entries
  size : ∀ line < heap.conceptLines.size,
    (t.conceptLines.get line).size = (heap.conceptLines.get line).size +
      parented.countP fun d => (heap.concept d).generalisations = some line
  linkGeneralisations : ∀ l < heap.links.size,
    (t.linesOfLink l).generalisations = (heap.linesOfLink l).generalisations
  linkFrames : ∀ l < heap.links.size,
    Grown (fun it : UriRef × LinkRef => heap.links.size ≤ it.2) reduces
      (heap.linesOfLink l).specialisations.frames.entries
      (t.linesOfLink l).specialisations.frames.entries

section Lists

variable {α : Type*} {isNew : α → Prop} {may may' : Prop} {old now : List α} {a : α}

theorem Grown.refl (isNew : α → Prop) (may : Prop) (old : List α) : Grown isNew may old old :=
  ⟨[], (List.append_nil old).symm, nofun, fun none => absurd rfl none⟩

theorem Grown.mono (grown : Grown isNew may old now) (weaker : may → may') :
    Grown isNew may' old now := by
  obtain ⟨added, split, fresh, allowed⟩ := grown
  exact ⟨added, split, fresh, weaker ∘ allowed⟩

theorem Grown.append (grown : Grown isNew may old now) (new : isNew a) (allowed : may) :
    Grown isNew may old (now ++ [a]) := by
  obtain ⟨added, rfl, fresh, -⟩ := grown
  refine ⟨added ++ [a], List.append_assoc _ _ _, fun b member => ?_, fun _ => allowed⟩
  rcases List.mem_append.mp member with before | last
  · exact fresh b before
  · exact List.mem_singleton.mp last ▸ new

theorem Grown.gained (grown : Grown isNew may old now) : Gained isNew may old now := by
  obtain ⟨added, rfl, new, allowed⟩ := grown
  exact ⟨added, .refl _, new, allowed⟩

theorem Grown.eq_of_length (grown : Grown isNew may old now) (same : now.length = old.length) :
    now = old := by
  obtain ⟨added, rfl, -, -⟩ := grown
  rw [List.length_append] at same
  have none : added.length = 0 := by omega
  rw [List.length_eq_zero_iff.mp none, List.append_nil]

end Lists

theorem TypedKLine.eq_of_entries {τ : Type*} {line line' : TypedKLine τ}
    (same : line.frames.entries = line'.frames.entries) : line = line' := by
  cases line
  cases line'
  exact congrArg TypedKLine.mk (InsertionMap.ext same)

/-- A resource that is filed under a new URI comes last. -/
theorem TypedKLine.entries_add {τ : Type*} {line : TypedKLine τ} {uri : UriRef}
    (fresh : uri ∉ line.keys) (resource : τ) :
    (line.add uri resource).frames.entries = line.frames.entries ++ [(uri, resource)] :=
  InsertionMap.entries_insert_of_notMem fresh resource

theorem TypedKLine.mem_keys_add {τ : Type*} {line : TypedKLine τ} {uri u : UriRef} {resource : τ}
    (member : u ∈ (line.add uri resource).keys) : u = uri ∨ u ∈ line.keys := by
  rw [TypedKLine.keys, TypedKLine.add, InsertionMap.keys_insert] at member
  split at member
  · exact Or.inr member
  · rcases List.mem_append.mp member with before | last
    · exact Or.inr before
    · exact Or.inl (List.mem_singleton.mp last)

section Filed

variable {heap : Heap}

/-- A new line has no frames, as if it had been there. -/
theorem Heap.get_conceptLines_constructed (content : KnowledgeString) (uri : KnowledgeURI)
    (line : LineRef) :
    (heap.constructed {} content uri).conceptLines.get line = heap.conceptLines.get line := by
  have blank : (default : TypedKLine ConceptRef) = {} := rfl
  rw [Heap.constructed]
  rcases Nat.lt_trichotomy line (heap.conceptLines.size + 1) with below | last | above
  · rw [Arena.get_alloc_of_lt _ (by rw [Arena.size_alloc]; exact below)]
    rcases Nat.lt_succ_iff_lt_or_eq.mp below with old | rfl
    · exact Arena.get_alloc_of_lt _ old _
    · rw [Arena.get_alloc_size, heap.conceptLines.get_of_size_le _ (Nat.le_refl _), blank]
  · have size : line = (heap.conceptLines.alloc {}).size := by rw [Arena.size_alloc, last]
    rw [size, Arena.get_alloc_size, Arena.size_alloc,
      heap.conceptLines.get_of_size_le _ (Nat.le_succ _), blank]
  · rw [Arena.get_of_size_le _ _ (by rw [Arena.size_alloc, Arena.size_alloc]; exact above),
      heap.conceptLines.get_of_size_le _ (by omega)]

theorem Heap.filed_empty : Heap.Filed {} where
  wellFormed := Heap.wellFormed_empty
  frames _ _ member := nomatch member
  linkFrames _ _ member := nomatch member

theorem Heap.Filed.constructed (filed : heap.Filed) (content : KnowledgeString)
    (uri : KnowledgeURI) : (heap.constructed {} content uri).Filed := by
  have grown : heap.uris.size < (heap.constructed {} content uri).uris.size := by
    rw [Heap.size_uris_constructed]
    exact Nat.lt_succ_self _
  refine ⟨filed.wellFormed.constructed (fun _ member => absurd member List.not_mem_nil) _ _,
    fun line u member => ?_, fun l u member => (filed.linkFrames l u member).trans grown⟩
  rw [Heap.get_conceptLines_constructed] at member
  exact (filed.frames line u member).trans grown

theorem Heap.Filed.withLink (filed : heap.Filed) {source destination : ConceptRef}
    (inside : source < heap.concepts.size ∧ destination < heap.concepts.size) (uri : KnowledgeURI)
    (probability : Probability) : (heap.withLink source destination uri probability).Filed := by
  have grown : heap.uris.size < (heap.withLink source destination uri probability).uris.size := by
    rw [Heap.withLink, Arena.size_alloc]
    exact Nat.lt_succ_self _
  exact ⟨filed.wellFormed.withLink inside uri probability,
    fun line u member => (filed.frames line u member).trans grown,
    fun l u member => (filed.linkFrames l u member).trans grown⟩

/-- Another content of a line of knowledge. -/
theorem Heap.Filed.withLine (filed : heap.Filed) (line : LineRef)
    {f : TypedKLine ConceptRef → TypedKLine ConceptRef}
    (values : ∀ l : TypedKLine ConceptRef, (∀ r ∈ l.values, r < heap.concepts.size) →
      ∀ r ∈ (f l).values, r < heap.concepts.size)
    (keys : ∀ u ∈ (f (heap.conceptLines.get line)).keys, u < heap.uris.size) :
    (heap.withLine line f).Filed := by
  refine ⟨filed.wellFormed.withLine values, fun l u member => ?_, filed.linkFrames⟩
  rw [Heap.withLine, Arena.get_modify] at member
  split at member
  · exact keys u member
  · exact filed.frames l u member

end Filed

namespace Since

variable {heap t : Heap} {parented instances : List ConceptRef} {reduces reduces' : Prop}
  {c d : ConceptRef} {line : LineRef}

/-- At first everything is as it was. -/
theorem start (filed : heap.Filed) (reduces : Prop) : Since heap [] reduces heap where
  filed := filed
  concepts_le := Nat.le_refl _
  lines_le := Nat.le_refl _
  uris_le := Nat.le_refl _
  links_le := Nat.le_refl _
  uris _ _ := rfl
  linkObjects _ _ := rfl
  concepts _ _ := rfl
  links _ _ := .refl ..
  frames _ _ := .refl ..
  size _ _ := rfl
  linkGeneralisations _ _ := rfl
  linkFrames _ _ := .refl ..

theorem mono (since : Since heap parented reduces t) (weaker : reduces → reduces') :
    Since heap parented reduces' t :=
  { since with
    links := fun c inside => (since.links c inside).mono weaker
    linkFrames := fun l inside => (since.linkFrames l inside).mono weaker }

/-- The concepts that existed have the URIs and names that they had. -/
theorem isInstance_iff (since : Since heap parented reduces t) (wf : heap.WellFormed)
    (inside : c < heap.concepts.size) : IsInstance t c ↔ IsInstance heap c := by
  have same : t.uriOf c = heap.uriOf c := by
    have uri : (t.concept c).uri = (heap.concept c).uri := by rw [since.concepts c inside]
    rw [Heap.uriOf, uri, since.uris _ (wf.uris c inside), Heap.uriOf]
  rw [IsInstance, IsInstance, same]

/-! ### Steps -/

/-- A new parent of an instance. -/
theorem withParent (since : Since heap parented reduces t)
    (has : (heap.concept c).generalisations = some line) (name : String) :
    Since heap (parented ++ [c]) reduces (t.withParent line name) := by
  have grown : t.concepts.size < (t.withParent line name).concepts.size := by
    rw [Heap.withParent, Heap.withLine, Heap.size_concepts_constructed]
    exact Nat.lt_succ_self _
  have grownUris : t.uris.size < (t.withParent line name).uris.size := by
    rw [Heap.withParent, Heap.withLine, Heap.size_uris_constructed]
    exact Nat.lt_succ_self _
  have sameConcept : ∀ d < heap.concepts.size, (t.withParent line name).concept d = t.concept d :=
    fun d old => Heap.concept_constructed_of_ne {} { value := name, name := name }
      { name := name ++ conceptSuffix } (old.trans_le since.concepts_le).ne
  have sameLine : ∀ l, (t.withParent line name).conceptLines.get l =
      if l = line then (t.conceptLines.get line).add t.uris.size t.concepts.size
      else t.conceptLines.get l := by
    intro l
    rw [Heap.withParent, Heap.withLine, Arena.get_modify, Heap.get_conceptLines_constructed,
      Heap.get_conceptLines_constructed]
  -- a heap that is well filed mentions no URI before it has been made
  have fresh : t.uris.size ∉ (t.conceptLines.get line).keys := fun member =>
    (since.filed.frames line _ member).ne rfl
  constructor
  case filed =>
    have made := since.filed.constructed { value := name, name := name }
      { name := name ++ conceptSuffix }
    apply made.withLine line
    · intro l old r member
      rcases TypedKLine.eq_or_mem_of_mem_values_add member with rfl | before
      · exact grown
      · exact old r before
    · intro u member
      rw [Heap.get_conceptLines_constructed] at member
      rcases TypedKLine.mem_keys_add member with rfl | before
      · exact grownUris
      · exact (since.filed.frames line u before).trans grownUris
  case concepts_le => exact since.concepts_le.trans grown.le
  case lines_le =>
    refine since.lines_le.trans (le_trans ?_ (Arena.size_le_size_modify ..))
    rw [Heap.constructed, Arena.size_alloc, Arena.size_alloc]
    omega
  case uris_le => exact since.uris_le.trans grownUris.le
  case links_le => exact since.links_le
  case uris =>
    intro u old
    rw [← since.uris u old]
    exact t.uris.get_alloc_of_lt (old.trans_le since.uris_le) _
  case linkObjects => exact since.linkObjects
  case concepts =>
    intro d old
    rw [sameConcept d old]
    exact since.concepts d old
  case links =>
    intro d old
    rw [sameConcept d old]
    exact since.links d old
  case frames =>
    intro l old
    rw [sameLine]
    split
    case isTrue same =>
      subst same
      -- the line of `c` grows by the new parent, which is no object of the old heap
      rw [TypedKLine.entries_add fresh]
      exact (since.frames l old).append since.concepts_le trivial
    case isFalse => exact since.frames l old
  -- a line is longer by as many parents as its concept has been given
  case size =>
    intro l old
    rw [sameLine, List.countP_append, List.countP_singleton, has]
    split
    case isTrue same =>
      subst same
      have before := since.size l old
      rw [TypedKLine.size, InsertionMap.size] at before ⊢
      rw [TypedKLine.entries_add fresh, List.length_append, before]
      simp [Nat.add_assoc]
    case isFalse other =>
      have other' : ¬ line = l := fun same => other same.symm
      simpa [other'] using since.size l old
  case linkGeneralisations => exact since.linkGeneralisations
  case linkFrames => exact since.linkFrames

/-- Links of a new concept. -/
theorem withLinks (since : Since heap parented reduces t) (new : heap.concepts.size ≤ d)
    (inside : d < t.concepts.size) {links : List LinkRef}
    (present : ∀ l ∈ links, l < t.links.size) :
    Since heap parented reduces (t.withLinks d links) := by
  have same : ∀ c < heap.concepts.size, (t.withLinks d links).concept c = t.concept c := by
    intro c old
    rw [Heap.concept_withLinks, if_neg (old.trans_le new).ne]
  exact
    { since with
      filed := ⟨since.filed.wellFormed.withLinks inside present, since.filed.frames,
        since.filed.linkFrames⟩
      concepts_le := since.concepts_le.trans (Heap.size_concepts_withLinks inside links).ge
      concepts := by
        intro c old
        rw [same c old]
        exact since.concepts c old
      links := by
        intro c old
        rw [same c old]
        exact since.links c old }

/-- Another content of a new line of knowledge. -/
theorem withLine (since : Since heap parented reduces t) (new : heap.conceptLines.size ≤ line)
    {content : TypedKLine ConceptRef} (values : ∀ r ∈ content.values, r < t.concepts.size)
    (keys : ∀ u ∈ content.keys, u < t.uris.size) :
    Since heap parented reduces (t.withLine line fun _ => content) := by
  have get : ∀ l, (t.withLine line fun _ => content).conceptLines.get l =
      if l = line then content else t.conceptLines.get l := fun l =>
    t.conceptLines.get_modify line l fun _ => content
  have same : ∀ l < heap.conceptLines.size,
      (t.withLine line fun _ => content).conceptLines.get l = t.conceptLines.get l := by
    intro l old
    rw [get, if_neg (old.trans_le new).ne]
  exact
    { since with
      filed := since.filed.withLine line (fun _ _ => values) keys
      lines_le := since.lines_le.trans (Arena.size_le_size_modify ..)
      frames := by
        intro l old
        rw [same l old]
        exact since.frames l old
      size := by
        intro l old
        rw [same l old]
        exact since.size l old }

/-- A new link, which is in no list yet. -/
theorem withLink (since : Since heap parented reduces t) {source destination : ConceptRef}
    (inside : source < t.concepts.size ∧ destination < t.concepts.size) (uri : KnowledgeURI)
    (probability : Probability) :
    Since heap parented reduces (t.withLink source destination uri probability) := by
  have grown : t.uris.size < (t.withLink source destination uri probability).uris.size := by
    rw [Heap.withLink, Arena.size_alloc]
    exact Nat.lt_succ_self _
  exact
    { since with
      filed := since.filed.withLink inside uri probability
      uris_le := since.uris_le.trans grown.le
      links_le := since.links_le.trans (Arena.size_le_size_modify ..)
      uris := by
        intro u old
        rw [← since.uris u old]
        exact t.uris.get_alloc_of_lt (old.trans_le since.uris_le) _
      linkObjects := by
        intro l old
        rw [← since.linkObjects l old]
        exact t.links.get_alloc_of_lt (old.trans_le since.links_le) _ }

/-- A new link is filed under its parent. -/
theorem withLinkLines (since : Since heap parented reduces t) {parent it : LinkRef}
    (new : heap.links.size ≤ it) (inside : it < t.links.size)
    (fresh : (t.link it).uri ∉ (t.linesOfLink parent).specialisations.keys) (may : reduces) :
    Since heap parented reduces (t.withLinkLines (t.filedUnder parent it)) := by
  have other : ∀ l < heap.links.size, l ≠ it := fun l old => (old.trans_le new).ne
  -- what is read of the links that existed
  have get : ∀ l < heap.links.size, (t.withLinkLines (t.filedUnder parent it)).linesOfLink l =
      if l = parent then { t.linesOfLink l with
        specialisations := (t.linesOfLink l).specialisations.add (t.link it).uri it }
      else t.linesOfLink l := by
    intro l old
    rw [Heap.linesOfLink, Heap.withLinkLines, Heap.filedUnder, Arena.get_modify]
    split
    case isTrue same => rw [← same, Arena.get_modify_of_ne _ (other l old), Heap.linesOfLink]
    case isFalse => rw [Arena.get_modify_of_ne _ (other l old), Heap.linesOfLink]
  have keys : ∀ l, ∀ u ∈ ((t.withLinkLines (t.filedUnder parent it)).linesOfLink
      l).specialisations.keys, u = (t.link it).uri ∨ u ∈ (t.linesOfLink l).specialisations.keys := by
    intro l u member
    have filed : ∀ l, ∀ u ∈ ((t.linkLines.modify it fun _ =>
        { generalisations := TypedKLine.add {} (t.link parent).uri parent }).get
          l).specialisations.keys, u ∈ (t.linesOfLink l).specialisations.keys := by
      intro l u member
      rw [Arena.get_modify] at member
      split at member
      · cases member
      · exact member
    rw [Heap.linesOfLink, Heap.withLinkLines, Heap.filedUnder, Arena.get_modify] at member
    split at member
    case isTrue same =>
      subst same
      exact (TypedKLine.mem_keys_add member).imp_right (filed l u)
    case isFalse => exact Or.inr (filed l u member)
  exact
    { since with
      filed := by
        refine ⟨since.filed.wellFormed.withLinkLines _, since.filed.frames, fun l u member => ?_⟩
        rcases keys l u member with rfl | before
        · exact since.filed.wellFormed.linkUris it inside
        · exact since.filed.linkFrames l u before
      linkGeneralisations := by
        intro l old
        rw [get l old, ← since.linkGeneralisations l old]
        split <;> rfl
      linkFrames := by
        intro l old
        rw [get l old]
        split
        case isTrue same =>
          subst same
          rw [TypedKLine.entries_add fresh]
          exact (since.linkFrames l old).append new may
        case isFalse => exact since.linkFrames l old }

/-- A new link is added to the links of a concept. -/
theorem linkAdded (since : Since heap parented reduces t) {it : LinkRef}
    (new : heap.links.size ≤ it) (inside : it < t.links.size) (present : c < t.concepts.size)
    (may : reduces) :
    Since heap parented reduces (t.withLinks c ((t.concept c).conceptLinks ++ [it])) := by
  have present' : ∀ l ∈ (t.concept c).conceptLinks ++ [it], l < t.links.size := by
    rw [List.forall_mem_append]
    exact ⟨since.filed.wellFormed.linked c, List.forall_mem_singleton.mpr inside⟩
  exact
    { since with
      filed := ⟨since.filed.wellFormed.withLinks present present', since.filed.frames,
        since.filed.linkFrames⟩
      concepts_le := since.concepts_le.trans (Heap.size_concepts_withLinks present _).ge
      concepts := by
        intro d old
        rw [Heap.concept_withLinks]
        split
        case isTrue same =>
          subst same
          rw [since.concepts d old]
        case isFalse => exact since.concepts d old
      links := by
        intro d old
        rw [Heap.concept_withLinks]
        split
        case isTrue same =>
          subst same
          exact (since.links d old).append new may
        case isFalse => exact since.links d old }

/-- The creation of a link under its parent. -/
theorem withSubLink (since : Since heap parented reduces t) {source destination : ConceptRef}
    (inside : source < t.concepts.size ∧ destination < t.concepts.size) (parent : LinkRef)
    (uri : KnowledgeURI) (probability : Probability) (may : reduces) :
    Since heap parented reduces (t.withSubLink parent source destination uri probability) := by
  -- the link is made, filed under its parent, and then added at both of its ends
  let made := t.withLink source destination uri probability
  let under := made.withLinkLines (made.filedUnder parent t.links.size)
  let linked := under.withLinks source ((under.concept source).conceptLinks ++ [t.links.size])
  have present : t.links.size < under.links.size :=
    (Arena.size_alloc .. : under.links.size = t.links.size + 1) ▸ Nat.lt_succ_self _
  have first : Since heap parented reduces made := since.withLink inside uri probability
  -- the URI of the new link is newer than any that is filed
  have fresh : (made.link t.links.size).uri ∉ (made.linesOfLink parent).specialisations.keys := by
    have uri' : made.link t.links.size =
        { source, destination, uri := t.uris.size, probability } := Arena.get_alloc_size ..
    rw [uri']
    exact fun member => (since.filed.linkFrames parent _ member).ne rfl
  have second : Since heap parented reduces under :=
    first.withLinkLines since.links_le present fresh may
  have third : Since heap parented reduces linked :=
    second.linkAdded since.links_le present inside.1 may
  have inside' : destination < linked.concepts.size := by
    rw [Heap.size_concepts_withLinks]
    · exact inside.2
    · exact inside.1
  exact third.linkAdded since.links_le present inside' may

/-- The creation of links keeps what is known, where it may happen. -/
theorem keptByLinks (may : reduces) : KeptByLinks (Since heap parented reduces) where
  wellFormed _ since := since.filed.wellFormed
  create _ parent _ _ uri since inside := since.withSubLink inside parent uri {} may

/-! ### The two passes -/

section Passes

variable {defaults : Defaults} {rest : List ConceptRef}

/-- The links of the table are as they were. -/
theorem plainTable (since : Since heap parented reduces t) (wf : heap.WellFormed)
    (table : PlainTable defaults heap) : PlainTable defaults t := by
  intro entry member
  obtain ⟨present, unmarked⟩ := table entry member
  rw [since.linkObjects _ present, since.uris _ (wf.linkUris _ present)]
  exact ⟨present.trans_le since.links_le, unmarked⟩

/-- What an instance with a uid leaves: its parent gets links and generalisations. -/
theorem withObjects (since : Since heap parented reduces t)
    (has : (heap.concept c).generalisations = some line) (name : String) (defaults : Defaults) :
    Since heap (parented ++ [c]) reduces
      (((t.withParent line name).withLinks t.concepts.size (t.concept c).conceptLinks).withLine
        t.conceptLines.size fun _ => ThinkingUnderstanding.filed (fun g =>
          (((t.withParent line name).withLinks t.concepts.size
            (t.concept c).conceptLinks).concept g).uri) (objectDestinations defaults t c)) := by
  let linked := (t.withParent line name).withLinks t.concepts.size (t.concept c).conceptLinks
  have grown : (t.withParent line name).concepts.size = t.concepts.size + 1 :=
    Heap.size_concepts_constructed {} _ { name := name ++ conceptSuffix }
  have present : t.concepts.size < (t.withParent line name).concepts.size :=
    grown ▸ Nat.lt_succ_self _
  have second : Since heap (parented ++ [c]) reduces linked :=
    (since.withParent has name).withLinks since.concepts_le present
      (since.filed.wellFormed.linked c)
  have values : ∀ g ∈ objectDestinations defaults t c, g < linked.concepts.size := by
    intro g member
    rw [Heap.size_concepts_withLinks present]
    exact (objectDestinations_lt since.filed.wellFormed member).trans present
  apply second.withLine since.lines_le
  · exact fun g member => values g (mem_of_mem_filed member)
  · intro u member
    obtain ⟨⟨_, g⟩, entry, rfl⟩ := List.mem_map.mp member
    obtain ⟨g, destination, same⟩ :=
      List.mem_map.mp (InsertionMap.mem_of_mem_entries_ofList entry)
    cases same
    exact second.filed.wellFormed.uris g (values g destination)

/-- An instance gets its parent. -/
theorem run_parent (since : Since heap parented reduces t) (wf : heap.WellFormed)
    (inside : c < heap.concepts.size) (here : IsInstance heap c) (defaults : Defaults) :
    ∃ p s, (createDomainConcept defaults c).run t = .ok p s ∧
      Since heap (parented ++ [c]) reduces s := by
  obtain ⟨line, -, has, -, -, -⟩ := wf.lines c inside
  have has' : (t.concept c).generalisations = some line := by rw [since.concepts c inside, has]
  have present := inside.trans_le since.concepts_le
  have here' := (since.isInstance_iff wf inside).mpr here
  by_cases instance' : (t.uriOf c).uid ≠ ""
  · exact ⟨_, _, run_createDomainConcept_of_uid present has' instance',
      since.withObjects has _ defaults⟩
  · obtain ⟨name, run⟩ := run_createDomainConcept_of_name present has' defaults instance'
      (here'.resolve_left instance')
    exact ⟨_, _, run, since.withParent has name⟩

/-- The first pass gives their parents to the instances before the first other concept, and
ends normally only if there is none. -/
theorem parents (since : Since heap parented reduces t) (wf : heap.WellFormed)
    (inside : ∀ c ∈ rest, c < heap.concepts.size) (defaults : Defaults) :
    Since heap (parented ++ processed heap rest) reduces
        (finalState ((rest.mapM (createDomainConcept defaults)).run t)) ∧
      ∀ ps s, (rest.mapM (createDomainConcept defaults)).run t = .ok ps s →
        ∀ c ∈ rest, IsInstance heap c := by
  -- on the concepts that remain; `parented` grows by each that is an instance
  induction rest generalizing t parented with
  | nil =>
    refine ⟨?_, fun _ _ _ => List.forall_mem_nil _⟩
    rw [processed, List.takeWhile_nil, List.append_nil]
    exact since
  | cons c rest ih =>
    obtain ⟨first, later⟩ := List.forall_mem_cons.mp inside
    rw [List.mapM_cons]
    by_cases here : IsInstance heap c
    · obtain ⟨p, m, run, next⟩ := since.run_parent wf first here defaults
      obtain ⟨left, all⟩ := ih next later
      rw [processed_cons here, List.append_cons, EStateM.run_bind, run]
      constructor
      · apply holds_bind
        · intro e s stopped
          rwa [stopped] at left
        · intro ps s ended
          rwa [ended] at left
      · intro ps s ended
        obtain ⟨ps', m', run', -⟩ := run_bind_eq_ok_iff.mp ended
        exact List.forall_mem_cons.mpr ⟨here, all ps' m' run'⟩
    · -- a concept that is no instance ends the loop before anything is written
      have none : processed heap (c :: rest) = [] :=
        List.takeWhile_cons_of_neg fun here' => here (of_decide_eq_true here')
      have other : ¬ IsInstance t c := fun here' => here ((since.isInstance_iff wf first).mp here')
      obtain ⟨e, failed⟩ : ∃ e, (createDomainConcept defaults c).run t = .error e t :=
        run_createDomainConcept_of_not_isInstance other
      rw [none, List.append_nil, EStateM.run_bind, failed]
      refine ⟨since, fun _ _ ended => ?_⟩
      cases ended

/-- What both passes leave, however they end. -/
theorem createDomainConcepts (filed : heap.Filed)
    (inside : ∀ c ∈ instances, c < heap.concepts.size) (table : PlainTable defaults heap)
    (stack : ℕ) :
    Since heap (processed heap instances) (∀ d ∈ instances, IsInstance heap d)
      (finalState ((createDomainConcepts defaults stack instances).run heap)) := by
  have wf := filed.wellFormed
  obtain ⟨left, all⟩ := (Since.start filed False).parents wf inside defaults
  rw [List.nil_append] at left
  rw [Correlation.createDomainConcepts]
  apply holds_bind
  · intro e s stopped
    rw [stopped] at left
    exact left.mono False.elim
  · intro ps s ended
    rw [ended] at left
    -- links are reduced only when all of the concepts were instances
    have every := all ps s ended
    have reducing : Reducing defaults s.concepts.size
        (Since heap (processed heap instances) (∀ d ∈ instances, IsInstance heap d)) s :=
      ⟨left.mono False.elim, left.plainTable wf table, rfl⟩
    have kept := (maintains_reduceLinks (Since.keptByLinks every) stack instances).keeps reducing
    apply holds_bind
    · intro e m reduced
      rw [reduced] at kept
      exact kept.holds
    · intro links m reduced
      rw [reduced] at kept
      exact kept.holds

end Passes

/-! ### What is left -/

/-- A line that no instance has as its generalisations is as it was. -/
theorem line_eq (since : Since heap parented reduces t) (old : line < heap.conceptLines.size)
    (apart : ∀ d, (heap.concept d).generalisations ≠ some line) :
    t.conceptLines.get line = heap.conceptLines.get line := by
  have none : (parented.countP fun d => (heap.concept d).generalisations = some line) = 0 := by
    apply List.countP_eq_zero.mpr
    intro d _ has
    exact apart d (of_decide_eq_true has)
  have size := since.size line old
  rw [none, Nat.add_zero] at size
  exact TypedKLine.eq_of_entries ((since.frames line old).eq_of_length size)

theorem leftBehind (since : Since heap (processed heap instances)
    (∀ d ∈ instances, IsInstance heap d) t) (wf : heap.WellFormed) :
    LeftBehind heap instances t where
  generalisations c inside := by
    obtain ⟨line, -, has, -, old, -⟩ := wf.lines c inside
    have has' : (t.concept c).generalisations = some line := by rw [since.concepts c inside, has]
    rw [Heap.generalisations, Heap.generalisations, has', has, Option.elim_some]
    exact ⟨(since.frames line old).gained, since.size line old⟩
  specialisations c inside := by
    obtain ⟨-, line, -, has, -, old⟩ := wf.lines c inside
    have has' : (t.concept c).specialisations = some line := by rw [since.concepts c inside, has]
    rw [Heap.specialisations, Heap.specialisations, has', has]
    exact since.line_eq old fun d edge => wf.apart d c line edge has
  links := since.links
  linkObjects := since.linkObjects
  linkGeneralisations := since.linkGeneralisations
  linkSpecialisations l inside := (since.linkFrames l inside).gained

end Since

/-- An exception leaves what has been done before: instances before the first other concept have
got their parents, and where all are instances, links may have been made. Nothing else that
existed has changed. -/
theorem leftBehind_of_error (defaults : Defaults) (stack : ℕ) (heap t : Heap)
    (instances : List ConceptRef) (e : GraphFailure) (filed : heap.Filed)
    (inside : ∀ c ∈ instances, c < heap.concepts.size) (table : PlainTable defaults heap)
    (raised : (createDomainConcepts defaults stack instances).run heap = .error e t) :
    LeftBehind heap instances t := by
  have since := Since.createDomainConcepts filed inside table stack
  rw [raised] at since
  exact since.leftBehind filed.wellFormed

/-! ### A user and a house -/

/-- An instance of a user, a house that is no instance, and a link between the two. -/
def userAndHouse : Heap :=
  let user : Heap := Heap.constructed {} {} { value := "user", name := "user" }
    { name := "user", uid := "1" }
  let house := user.constructed {} { value := "house", name := "house" }
    { name := "houseConcept" }
  house.withLink 0 1 { name := "be" } {}

/-- The house is reduced to the link. -/
def houseReduced : Defaults := { reduceLinks := [(1, 0)] }

/-- The house is found not to be an instance. -/
theorem returned_userAndHouse :
    returned ((createDomainConcepts houseReduced 2 [0, 1]).run userAndHouse) = none := by
  decide +kernel

theorem userAndHouse_leftBehind : ∃ e t,
    (createDomainConcepts houseReduced 2 [0, 1]).run userAndHouse = .error e t ∧
      LeftBehind userAndHouse [0, 1] t := by
  have filed : userAndHouse.Filed :=
    ((Heap.filed_empty.constructed _ _).constructed _ _).withLink
      ⟨Nat.two_pos, Nat.one_lt_two⟩ { name := "be" } {}
  have table : PlainTable houseReduced userAndHouse := by
    intro entry member
    obtain rfl := List.mem_singleton.mp member
    exact ⟨Nat.one_pos, by decide +kernel⟩
  obtain ⟨e, t, raised⟩ := exists_error_of_returned returned_userAndHouse
  exact ⟨e, t, raised, leftBehind_of_error houseReduced 2 userAndHouse t [0, 1] e filed (by decide)
    table raised⟩

/-- The user keeps the parent that it has got before the house is looked at. -/
theorem user_keeps_parent : ∃ e t,
    (createDomainConcepts houseReduced 2 [0, 1]).run userAndHouse = .error e t ∧
      ¬ Unchanged userAndHouse t := by
  have parent : ((finalState ((createDomainConcepts houseReduced 2 [0, 1]).run
      userAndHouse)).generalisations 0).size ≠ (userAndHouse.generalisations 0).size := by
    decide +kernel
  obtain ⟨e, t, raised⟩ := exists_error_of_returned returned_userAndHouse
  rw [raised] at parent
  exact ⟨e, t, raised, fun same => parent (congrArg _ (same.generalisations 0 Nat.two_pos))⟩

end ThinkingUnderstanding
