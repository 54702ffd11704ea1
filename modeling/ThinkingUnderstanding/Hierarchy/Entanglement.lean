import ThinkingUnderstanding.Hierarchy.Ascending
import ThinkingUnderstanding.Hierarchy.Hashing

/-!
# Which concepts have a hash code?

The factories that relate a concept to another one, or to a phrase, file each of the two with
the other. An object that refers to a concept therefore refers to one that refers to something
itself, and no hash code of such a concept is ever found: only a concept that stands alone has
one.

A step of a factory may leave a concept that is referred to and does not refer to anything
yet, such as the parent of a child that has just been constructed. Such concepts are pending.

## Main definitions

* `FactoryCall`, `FactoryCall.perform` — the factories of concepts, phrases and links
* `StandsAlone` — a concept that is related to no other one
* `Entangled` — all concepts that are referred to are pending, or do not stand alone

## Main results

* `Entangled.perform` — no factory leaves a concept pending
* `hashTerminates_iff_of_reachable` — what can be hashed after any calls of factories
-/

namespace ThinkingUnderstanding

open Math Semantics

/-! ### The factories -/

namespace Concept

/-- `new Concept(...)`, where the lines of generalisations and of phrases are given. -/
def constructWith (generalisations : TypedKLine ConceptRef) (phrases : TypedKLine PhraseRef)
    (content : KnowledgeString) (uri : KnowledgeURI) : GraphProgram ConceptRef := do
  let generalisationLine ← modifyGet fun heap =>
    (heap.conceptLines.size, { heap with conceptLines := heap.conceptLines.alloc generalisations })
  let specialisationLine ← newConceptLine
  let phraseLine ← modifyGet fun heap =>
    (heap.phraseLines.size, { heap with phraseLines := heap.phraseLines.alloc phrases })
  let uriObject ← modifyGet fun heap =>
    (heap.uris.size, { heap with uris := heap.uris.alloc uri })
  let concept : Concept :=
    { generalisations := some generalisationLine
      specialisations := some specialisationLine
      phrases := some phraseLine
      content
      uri := uriObject }
  modifyGet fun heap =>
    (heap.concepts.size, { heap with concepts := heap.concepts.alloc concept })

theorem construct_eq (generalisations : TypedKLine ConceptRef) (content : KnowledgeString)
    (uri : KnowledgeURI) :
    construct generalisations content uri = constructWith generalisations {} content uri := rfl

/-- `Concept.createInstanceConcept(instanceName, phrase)`. What is left of
`createInstanceConcept(phrase)` is the name it prepares of the text of the phrase. -/
def createInstanceOfPhrase (instanceName : String) (phrase : PhraseRef) (uid : String) :
    GraphProgram ConceptRef := do
  let uri := ((← get).phrase phrase).uri
  constructWith {} (TypedKLine.add {} uri phrase) { value := instanceName, name := instanceName }
    { name := instanceName, uid }

/-- `concept.phrases + (it.uri -> it)`. -/
def phrasesAdd (concept : ConceptRef) (it : PhraseRef) : GraphProgram Unit := do
  match ((← get).concept concept).phrases with
  | some line =>
      modify fun heap => { heap with
        phraseLines := heap.phraseLines.modify line fun l => l.add (heap.phrase it).uri it }
  | none => throw .nullPointer

end Concept

namespace AnnotatedPhrase

/-- `new AnnotatedPhrase(...)`. -/
def construct (phrases : List PhraseRef) (concepts : List ConceptRef) (uri : KnowledgeURI)
    (text : String) : GraphProgram PhraseRef := do
  let uriObject ← modifyGet fun heap =>
    (heap.uris.size, { heap with uris := heap.uris.alloc uri })
  modifyGet fun heap =>
    (heap.phrases.size,
      { heap with phrases := heap.phrases.alloc { phrases, concepts, uri := uriObject, text } })

/-- `AnnotatedPhrase(word)`. -/
def ofWord (word : String) : GraphProgram PhraseRef :=
  construct [] [] { name := word ++ "EmptyPhrase" } word

/-- `AnnotatedPhrase(word, concept)`. -/
def ofWordAndConcept (word : String) (concept : ConceptRef) : GraphProgram PhraseRef := do
  let empty ← ofWord word
  let it ← construct [empty] [concept] { name := word ++ "Phrase" } word
  Concept.phrasesAdd concept it
  return it

end AnnotatedPhrase

/-- The factories of concepts and phrases, and the one that links concepts. -/
inductive FactoryCall
  | concept (name : String)
  | createSubConcept (parent : ConceptRef) (name : String)
  | createInstanceConcept (parent : ConceptRef) (uid : String)
  | createInstanceConceptOf (parent : ConceptRef) (content uid : String)
  | createInstanceNamed (instanceName uid : String)
  | createInstanceOfPhrase (instanceName : String) (phrase : PhraseRef) (uid : String)
  | phrase (word : String)
  | phraseOf (word : String) (concept : ConceptRef)
  | createSubConceptLink (parent : LinkRef) (source destination : ConceptRef) (name : String)
      (probability : Probability)

namespace FactoryCall

/-- Call a factory for what it does to the heap. -/
def perform : FactoryCall → GraphProgram Unit
  | concept name => discard (Concept.create name)
  | createSubConcept parent name => discard (Concept.createSubConcept parent name)
  | createInstanceConcept parent uid => discard (Concept.createInstanceConcept parent uid)
  | createInstanceConceptOf parent content uid =>
      discard (Concept.createInstanceConceptOf parent content uid)
  | createInstanceNamed instanceName uid => discard (Concept.createInstanceNamed instanceName uid)
  | createInstanceOfPhrase instanceName p uid =>
      discard (Concept.createInstanceOfPhrase instanceName p uid)
  | phrase word => discard (AnnotatedPhrase.ofWord word)
  | phraseOf word c => discard (AnnotatedPhrase.ofWordAndConcept word c)
  | createSubConceptLink parent source destination name probability =>
      discard (ConceptLink.createSubConceptLink parent source destination name probability)

/-- The concepts that a factory is given exist. -/
def Refers (heap : Heap) : FactoryCall → Prop
  | createSubConcept parent _ => parent < heap.concepts.size
  | createInstanceConcept parent _ => parent < heap.concepts.size
  | createInstanceConceptOf parent _ _ => parent < heap.concepts.size
  | phraseOf _ c => c < heap.concepts.size
  | createSubConceptLink _ source destination _ _ =>
      source < heap.concepts.size ∧ destination < heap.concepts.size
  | _ => True

end FactoryCall

/-! ### Concepts that refer to each other -/

/-- The concept has no parent, child or link, and its phrases mean no concept. -/
structure StandsAlone (heap : Heap) (c : ConceptRef) : Prop where
  generalisations : (heap.generalisations c).values = []
  specialisations : (heap.specialisations c).values = []
  links : (heap.concept c).conceptLinks = []
  phrases : ∀ p ∈ (heap.phrasesOf c).values, (heap.phrase p).concepts = []

/-- Every concept that a line of knowledge, a phrase or a link of a concept refers to is
pending, or does not stand alone. A phrase that means no concept has no parts. -/
structure Entangled (heap : Heap) (pending : ConceptRef → Prop) : Prop where
  wellFormed : heap.WellFormed
  phraseLines : ∀ c < heap.concepts.size, ∃ line, (heap.concept c).phrases = some line ∧
    line < heap.phraseLines.size
  filed : ∀ l, ∀ c ∈ (heap.conceptLines.get l).values, pending c ∨ ¬ StandsAlone heap c
  meant : ∀ p, ∀ c ∈ (heap.phrase p).concepts, pending c ∨ ¬ StandsAlone heap c
  linked : ∀ c, ∀ l ∈ (heap.concept c).conceptLinks,
    (pending (heap.link l).source ∨ ¬ StandsAlone heap (heap.link l).source) ∧
      (pending (heap.link l).destination ∨ ¬ StandsAlone heap (heap.link l).destination)
  parts : ∀ p, ∀ q ∈ (heap.phrase p).phrases, q < heap.phrases.size ∧
    (heap.phrase q).concepts = [] ∧ (heap.phrase q).phrases = []
  bare : ∀ p, (heap.phrase p).concepts = [] → (heap.phrase p).phrases = []

section Hashed

variable {heap : Heap} {c : ConceptRef} {l : LineRef} {p : PhraseRef}

/-- An object that leads to concepts which do not stand alone. -/
def LeadsOn (heap : Heap) : HashedObject → Prop
  | .concept c => ¬ StandsAlone heap c
  | .conceptLine l => (heap.conceptLines.get l).values ≠ []
  | .phraseLine l => ∃ p ∈ (heap.phraseLines.get l).values, (heap.phrase p).concepts ≠ []
  | .phrase p => (heap.phrase p).concepts ≠ []
  | .link l => ¬ StandsAlone heap (heap.link l).source ∨ ¬ StandsAlone heap (heap.link l).destination

theorem exists_mem_fields_leadsOn (entangled : Entangled heap fun _ => False) {o : HashedObject}
    (leads : LeadsOn heap o) : ∃ b ∈ o.fields heap, LeadsOn heap b := by
  have alone : ∀ {d}, False ∨ ¬ StandsAlone heap d → LeadsOn heap (.concept d) := fun h =>
    h.resolve_left not_false
  cases o with
  | concept c =>
    -- if no field led on, the concept would have no relation left
    by_contra none
    push Not at none
    simp only [HashedObject.fields, List.mem_append, List.mem_map, Option.mem_toList] at none
    refine leads ⟨?_, ?_, ?_, ?_⟩
    · rw [Heap.generalisations]
      cases has : (heap.concept c).generalisations with
      | none => rfl
      | some l => exact not_not.mp (none _ (Or.inl (Or.inl (Or.inl ⟨l, has, rfl⟩))))
    · rw [Heap.specialisations]
      cases has : (heap.concept c).specialisations with
      | none => rfl
      | some l => exact not_not.mp (none _ (Or.inl (Or.inl (Or.inr ⟨l, has, rfl⟩))))
    · rw [List.eq_nil_iff_forall_not_mem]
      intro l member
      exact none _ (Or.inr ⟨l, member, rfl⟩) (Or.inl (alone (entangled.linked c l member).1))
    · intro p member
      rw [Heap.phrasesOf] at member
      cases has : (heap.concept c).phrases with
      | none =>
        rw [has] at member
        cases member
      | some l =>
        rw [has] at member
        by_contra means
        exact none _ (Or.inl (Or.inr ⟨l, has, rfl⟩)) ⟨p, member, means⟩
  | conceptLine l =>
    obtain ⟨c, member⟩ := List.exists_mem_of_ne_nil _ leads
    exact ⟨_, List.mem_map_of_mem member, alone (entangled.filed l c member)⟩
  | phraseLine l =>
    obtain ⟨p, member, means⟩ := leads
    exact ⟨_, List.mem_map_of_mem member, means⟩
  | phrase p =>
    obtain ⟨c, member⟩ := List.exists_mem_of_ne_nil _ leads
    refine ⟨.concept c, ?_, alone (entangled.meant p c member)⟩
    exact List.mem_append_right _ (List.mem_map_of_mem member)
  | link l =>
    rcases leads with source | destination
    · exact ⟨.concept (heap.link l).source, List.mem_cons_self, source⟩
    · refine ⟨.concept (heap.link l).destination, ?_, destination⟩
      exact List.mem_cons_of_mem _ List.mem_cons_self

/-- An object without fields of its own is at the end of a recursion. -/
theorem acc_of_fields_eq_nil {o : HashedObject} (none : o.fields heap = []) :
    Acc (fun b a => b ∈ HashedObject.fields heap a) o :=
  ⟨o, fun b step => absurd (none ▸ step : b ∈ []) List.not_mem_nil⟩

/-- An object has a hash code exactly when it does not lead to concepts that are related to
others. -/
theorem Entangled.acc_iff (entangled : Entangled heap fun _ => False) {o : HashedObject} :
    Acc (fun b a => b ∈ HashedObject.fields heap a) o ↔ ¬ LeadsOn heap o := by
  -- from the leaves upwards: a phrase without concepts, a line of such phrases,
  -- an empty line of concepts, and then a concept with none but these
  have phrases : ∀ {p}, (heap.phrase p).concepts = [] →
      Acc (fun b a => b ∈ HashedObject.fields heap a) (.phrase p) := by
    intro p bare
    apply acc_of_fields_eq_nil
    rw [HashedObject.fields, bare, entangled.bare p bare]
    rfl
  have phraseLines : ∀ {l}, (∀ p ∈ (heap.phraseLines.get l).values, (heap.phrase p).concepts = []) →
      Acc (fun b a => b ∈ HashedObject.fields heap a) (.phraseLine l) := by
    intro l bare
    refine ⟨_, fun b step => ?_⟩
    obtain ⟨p, member, same⟩ := List.mem_map.mp step
    exact same ▸ phrases (bare p member)
  have conceptLines : ∀ {l}, (heap.conceptLines.get l).values = [] →
      Acc (fun b a => b ∈ HashedObject.fields heap a) (.conceptLine l) := by
    intro l empty
    apply acc_of_fields_eq_nil
    rw [HashedObject.fields, empty]
    rfl
  have concepts : ∀ {c}, StandsAlone heap c →
      Acc (fun b a => b ∈ HashedObject.fields heap a) (.concept c) := by
    intro c alone
    refine ⟨_, fun b step => ?_⟩
    simp only [HashedObject.fields, List.mem_append, List.mem_map, Option.mem_toList] at step
    rcases step with ((⟨l, has, rfl⟩ | ⟨l, has, rfl⟩) | ⟨l, has, rfl⟩) | ⟨l, member, -⟩
    · have empty := alone.generalisations
      rw [Heap.generalisations, has] at empty
      exact conceptLines empty
    · have empty := alone.specialisations
      rw [Heap.specialisations, has] at empty
      exact conceptLines empty
    · have bare := alone.phrases
      rw [Heap.phrasesOf, has] at bare
      exact phraseLines bare
    · rw [alone.links] at member
      cases member
  constructor
  · -- an object that leads on has a successor that leads on
    exact fun acc leads => not_acc_of_exists_next (fun _ => exists_mem_fields_leadsOn entangled)
      leads acc
  · intro ends
    cases o with
    | concept c => exact concepts (not_not.mp ends)
    | conceptLine l => exact conceptLines (not_not.mp ends)
    | phraseLine l =>
      rw [LeadsOn] at ends
      push Not at ends
      exact phraseLines ends
    | phrase p => exact phrases (not_not.mp ends)
    | link l =>
      rw [LeadsOn, not_or, not_not, not_not] at ends
      refine ⟨_, fun b step => ?_⟩
      rcases List.mem_pair.mp step with rfl | rfl
      · exact concepts ends.1
      · exact concepts ends.2

end Hashed

/-! ### What a step leaves pending -/

section Steps

variable {heap : Heap} {pending pending' : ConceptRef → Prop} {c d : ConceptRef} {p : PhraseRef}

/-- A concept that does not stand alone need not be pending. -/
theorem Entangled.mono (entangled : Entangled heap pending)
    (le : ∀ d, pending d → pending' d ∨ ¬ StandsAlone heap d) : Entangled heap pending' := by
  have weaker : ∀ {d}, pending d ∨ ¬ StandsAlone heap d → pending' d ∨ ¬ StandsAlone heap d := by
    intro d known
    rcases known with awaited | related
    · exact le d awaited
    · exact Or.inr related
  exact
    { entangled with
      filed := fun l c member => weaker (entangled.filed l c member)
      meant := fun p c member => weaker (entangled.meant p c member)
      linked := fun c l member =>
        ⟨weaker (entangled.linked c l member).1, weaker (entangled.linked c l member).2⟩ }

/-- Where there is no concept yet, none is related. -/
theorem standsAlone_of_size_le (beyond : heap.concepts.size ≤ c) : StandsAlone heap c := by
  have none := Heap.concept_of_size_le beyond
  constructor
  case generalisations =>
    rw [Heap.generalisations, none]
    rfl
  case specialisations =>
    rw [Heap.specialisations, none]
    rfl
  case links =>
    rw [none]
    rfl
  case phrases =>
    intro p member
    rw [Heap.phrasesOf, none] at member
    cases member

theorem Entangled.phraseLine_lt (entangled : Entangled heap pending) {line : LineRef}
    (has : (heap.concept c).phrases = some line) : line < heap.phraseLines.size := by
  rcases lt_or_ge c heap.concepts.size with inside | beyond
  · obtain ⟨line', has', below⟩ := entangled.phraseLines c inside
    rw [has, Option.some_inj] at has'
    exact has' ▸ below
  · rw [Heap.concept_of_size_le beyond] at has
    cases has

/-- Lines of phrases and phrases do not matter for the lines of concepts. -/
theorem Heap.WellFormed.withPhrases (wf : heap.WellFormed) {uris : Arena KnowledgeURI}
    (grown : heap.uris.size ≤ uris.size) (phraseLines : Arena (TypedKLine PhraseRef))
    (phrases : Arena AnnotatedPhrase) :
    ({ heap with uris, phraseLines, phrases } : Heap).WellFormed where
  lines := wf.lines
  apart := wf.apart
  generalisations_lt := wf.generalisations_lt
  specialisations_lt := wf.specialisations_lt
  ends := wf.ends
  linked := wf.linked
  uris c inside := (wf.uris c inside).trans_le grown
  linkUris l inside := (wf.linkUris l inside).trans_le grown

/-- The heap after the construction of a concept with given phrases. -/
def Heap.constructedWith (heap : Heap) (generalisations : TypedKLine ConceptRef)
    (phrases : TypedKLine PhraseRef) (content : KnowledgeString) (uri : KnowledgeURI) : Heap :=
  { heap.constructed generalisations content uri with
    phraseLines := heap.phraseLines.alloc phrases }

theorem Heap.run_constructWith (generalisations : TypedKLine ConceptRef)
    (phrases : TypedKLine PhraseRef) (content : KnowledgeString) (uri : KnowledgeURI) :
    (Concept.constructWith generalisations phrases content uri).run heap =
      .ok heap.concepts.size (heap.constructedWith generalisations phrases content uri) := rfl

section ConstructedWith

variable (generalisations : TypedKLine ConceptRef) (phrases : TypedKLine PhraseRef)
  (content : KnowledgeString) (uri : KnowledgeURI)

/-- The relations of the concepts that exist are not touched. -/
theorem Entangled.standsAlone_of_constructedWith (entangled : Entangled heap pending)
    (old : c ≠ heap.concepts.size)
    (alone : StandsAlone (heap.constructedWith generalisations phrases content uri) c) :
    StandsAlone heap c := by
  have wf := entangled.wellFormed
  have same : (heap.constructedWith generalisations phrases content uri).concept c =
      heap.concept c := Heap.concept_constructed_of_ne _ _ uri old
  constructor
  case generalisations =>
    -- the new phrase lines are no lines of concepts
    have none : ((heap.constructed generalisations content uri).generalisations c).values = [] :=
      alone.generalisations
    rw [Heap.generalisations_constructed _ _ _ wf, if_neg old] at none
    exact none
  case specialisations =>
    have none : ((heap.constructed generalisations content uri).specialisations c).values = [] :=
      alone.specialisations
    rw [Heap.specialisations_constructed _ _ _ wf, if_neg old] at none
    exact none
  case links => exact same ▸ alone.links
  case phrases =>
    intro p member
    apply alone.phrases p
    rw [Heap.phrasesOf] at member
    rw [Heap.phrasesOf, same]
    cases has : (heap.concept c).phrases with
    | none =>
      rw [has] at member
      exact member
    | some line =>
      rw [has] at member
      rw [Option.elim_some, Heap.constructedWith,
        Arena.get_alloc_of_lt _ (entangled.phraseLine_lt has)]
      exact member

/-- A new concept refers to its parents only, which may be pending. -/
theorem Entangled.constructedWith (entangled : Entangled heap pending)
    (inside : ∀ g ∈ generalisations.values, g < heap.concepts.size)
    (awaited : ∀ g ∈ generalisations.values, pending g) :
    Entangled (heap.constructedWith generalisations phrases content uri) pending := by
  have wf := entangled.wellFormed
  -- nothing refers to the new concept yet, so the others are as related as before
  have kept : ∀ {d}, pending d ∨ ¬ StandsAlone heap d → pending d ∨
      ¬ StandsAlone (heap.constructedWith generalisations phrases content uri) d := by
    intro d known
    refine known.imp_right fun related alone => related ?_
    by_cases new : d = heap.concepts.size
    · exact standsAlone_of_size_le new.ge
    · exact entangled.standsAlone_of_constructedWith _ _ _ _ new alone
  constructor
  case wellFormed => exact (wf.constructed inside content uri).withPhrases le_rfl _ _
  case phraseLines =>
    intro c present
    have size : (heap.constructedWith generalisations phrases content uri).phraseLines.size =
        heap.phraseLines.size + 1 := Arena.size_alloc ..
    rw [size]
    by_cases new : c = heap.concepts.size
    · refine ⟨heap.phraseLines.size, ?_, Nat.lt_succ_self _⟩
      rw [new]
      exact congrArg Concept.phrases (Heap.concept_constructed_self generalisations content uri)
    · have old : c < heap.concepts.size := by
        change c < (heap.constructed generalisations content uri).concepts.size at present
        rw [Heap.size_concepts_constructed] at present
        exact (Nat.lt_succ_iff_lt_or_eq.mp present).resolve_right new
      obtain ⟨line, has, below⟩ := entangled.phraseLines c old
      refine ⟨line, ?_, below.trans (Nat.lt_succ_self _)⟩
      exact (congrArg Concept.phrases (Heap.concept_constructed_of_ne _ _ uri new)).trans has
  -- of the two new lines one holds the parents, and the other one is empty
  case filed =>
    intro l c member
    change c ∈ (((heap.conceptLines.alloc generalisations).alloc {}).get l).values at member
    by_cases second : l = (heap.conceptLines.alloc generalisations).size
    · rw [second, Arena.get_alloc_size] at member
      cases member
    · rw [Arena.get_alloc_of_ne _ second] at member
      by_cases first : l = heap.conceptLines.size
      · rw [first, Arena.get_alloc_size] at member
        exact Or.inl (awaited c member)
      · rw [Arena.get_alloc_of_ne _ first] at member
        exact kept (entangled.filed l c member)
  case meant => exact fun p c member => kept (entangled.meant p c member)
  case linked =>
    intro c l member
    by_cases new : c = heap.concepts.size
    · have none : ((heap.constructedWith generalisations phrases content uri).concept c).conceptLinks
          = [] := by
        rw [new]
        exact congrArg Concept.conceptLinks
          (Heap.concept_constructed_self generalisations content uri)
      rw [none] at member
      cases member
    · have same : (heap.constructedWith generalisations phrases content uri).concept c =
          heap.concept c := Heap.concept_constructed_of_ne _ _ uri new
      rw [same] at member
      exact (entangled.linked c l member).imp kept kept
  case parts => exact entangled.parts
  case bare => exact entangled.bare

end ConstructedWith

/-- What stood alone before a step can be related after it; the converse suffices to keep what
is known of a concept. -/
theorem related_or_pending {t : Heap} (alone : ∀ d, StandsAlone t d → StandsAlone heap d)
    (known : pending d ∨ ¬ StandsAlone heap d) : pending d ∨ ¬ StandsAlone t d :=
  known.imp_right fun related => related ∘ alone d

section WithLine

variable {line : LineRef} (uri : UriRef) (r : ConceptRef)

theorem standsAlone_of_withLine (alone : StandsAlone (heap.withLine line (·.add uri r)) c) :
    StandsAlone heap c := by
  constructor
  case generalisations =>
    have none := alone.generalisations
    rw [Heap.generalisations_withLine] at none
    split at none
    · exact absurd none (TypedKLine.values_add_ne_nil _ _ _)
    · exact none
  case specialisations =>
    have none := alone.specialisations
    rw [Heap.specialisations_withLine] at none
    split at none
    · exact absurd none (TypedKLine.values_add_ne_nil _ _ _)
    · exact none
  case links => exact alone.links
  case phrases => exact alone.phrases

/-- A concept that is filed in a line has to be pending, or related. -/
theorem Entangled.withLine (entangled : Entangled heap pending) (present : r < heap.concepts.size)
    (known : pending r ∨ ¬ StandsAlone heap r) :
    Entangled (heap.withLine line (·.add uri r)) pending := by
  have kept : ∀ {d}, pending d ∨ ¬ StandsAlone heap d →
      pending d ∨ ¬ StandsAlone (heap.withLine line (·.add uri r)) d :=
    related_or_pending fun _ => standsAlone_of_withLine uri r
  exact
    { entangled with
      wellFormed := by
        apply entangled.wellFormed.withLine
        intro l inside d member
        rcases TypedKLine.eq_or_mem_of_mem_values_add member with same | old
        · exact same ▸ present
        · exact inside d old
      filed := by
        intro l d member
        rw [Heap.withLine, Arena.get_modify] at member
        split at member
        · rcases TypedKLine.eq_or_mem_of_mem_values_add member with same | old
          · exact kept (same ▸ known)
          · exact kept (entangled.filed line d old)
        · exact kept (entangled.filed l d member)
      meant := fun p d member => kept (entangled.meant p d member)
      linked := fun d l member => (entangled.linked d l member).imp kept kept }

/-- A concept whose line of specialisations files another one does not stand alone. -/
theorem not_standsAlone_withLine (has : (heap.concept c).specialisations = some line) :
    ¬ StandsAlone (heap.withLine line (·.add uri r)) c := by
  intro alone
  have none := alone.specialisations
  rw [Heap.specialisations_withLine, if_pos has] at none
  exact TypedKLine.values_add_ne_nil _ _ _ none

end WithLine

/-- The creation of a link does not relate its ends yet. -/
theorem Entangled.withLink (entangled : Entangled heap pending) {source destination : ConceptRef}
    (inside : source < heap.concepts.size ∧ destination < heap.concepts.size)
    (uri : KnowledgeURI) (probability : Probability) :
    Entangled (heap.withLink source destination uri probability) pending := by
  have kept : ∀ {d}, pending d ∨ ¬ StandsAlone heap d →
      pending d ∨ ¬ StandsAlone (heap.withLink source destination uri probability) d :=
    related_or_pending fun d alone => ⟨alone.1, alone.2, alone.3, alone.4⟩
  exact
    { entangled with
      wellFormed := entangled.wellFormed.withLink inside uri probability
      filed := fun l d member => kept (entangled.filed l d member)
      meant := fun p d member => kept (entangled.meant p d member)
      linked := by
        intro d l member
        have same : (heap.withLink source destination uri probability).link l = heap.link l :=
          heap.links.get_alloc_of_lt (entangled.wellFormed.linked d l member) _
        rw [same]
        exact (entangled.linked d l member).imp kept kept }

theorem Entangled.withLinkLines (entangled : Entangled heap pending) (lines : Arena LinkLines) :
    Entangled (heap.withLinkLines lines) pending := by
  have kept : ∀ {d}, pending d ∨ ¬ StandsAlone heap d →
      pending d ∨ ¬ StandsAlone (heap.withLinkLines lines) d :=
    related_or_pending fun d alone => ⟨alone.1, alone.2, alone.3, alone.4⟩
  exact
    { entangled with
      wellFormed := entangled.wellFormed.withLinkLines lines
      filed := fun l d member => kept (entangled.filed l d member)
      meant := fun p d member => kept (entangled.meant p d member)
      linked := fun d l member => (entangled.linked d l member).imp kept kept }

section LinksAdd

variable {l : LinkRef}

theorem standsAlone_of_withLinks
    (alone : StandsAlone (heap.withLinks c ((heap.concept c).conceptLinks ++ [l])) d) :
    StandsAlone heap d := by
  have generalisations := alone.generalisations
  have specialisations := alone.specialisations
  have phrases := alone.phrases
  have links := alone.links
  rw [Heap.generalisations, Heap.generalisations_withLinks] at generalisations
  rw [Heap.specialisations, Heap.specialisations_withLinks] at specialisations
  rw [Heap.concept_withLinks] at links
  rw [Heap.phrasesOf, Heap.concept_withLinks] at phrases
  split at links
  case isTrue => exact absurd links (List.append_ne_nil_of_right_ne_nil _ (List.cons_ne_nil _ _))
  case isFalse other =>
    rw [if_neg other] at phrases
    exact ⟨generalisations, specialisations, links, phrases⟩

/-- A concept with a link does not stand alone. -/
theorem not_standsAlone_withLinks :
    ¬ StandsAlone (heap.withLinks c ((heap.concept c).conceptLinks ++ [l])) c := by
  intro alone
  have links := alone.links
  rw [Heap.concept_withLinks, if_pos rfl] at links
  exact List.append_ne_nil_of_right_ne_nil _ (List.cons_ne_nil _ _) links

theorem Entangled.withLinks (entangled : Entangled heap pending) (inside : c < heap.concepts.size)
    (present : l < heap.links.size)
    (source : pending (heap.link l).source) (destination : pending (heap.link l).destination) :
    Entangled (heap.withLinks c ((heap.concept c).conceptLinks ++ [l])) pending := by
  have kept : ∀ {d}, pending d ∨ ¬ StandsAlone heap d → pending d ∨
      ¬ StandsAlone (heap.withLinks c ((heap.concept c).conceptLinks ++ [l])) d :=
    related_or_pending fun _ => standsAlone_of_withLinks
  exact
    { entangled with
      wellFormed := by
        apply entangled.wellFormed.withLinks inside
        rw [List.forall_mem_append]
        exact ⟨entangled.wellFormed.linked c, List.forall_mem_singleton.mpr present⟩
      phraseLines := by
        intro d present
        rw [Heap.size_concepts_withLinks inside] at present
        rw [Heap.concept_withLinks]
        split
        case isTrue => exact entangled.phraseLines c inside
        case isFalse => exact entangled.phraseLines d present
      filed := fun l d member => kept (entangled.filed l d member)
      meant := fun p d member => kept (entangled.meant p d member)
      linked := by
        intro d l' member
        rw [Heap.concept_withLinks] at member
        split at member
        case isTrue =>
          -- only the new link is one that was not there, and both its ends are pending
          rcases List.mem_append.mp member with old | new
          · exact (entangled.linked c l' old).imp kept kept
          · rw [List.mem_singleton] at new
            subst new
            exact ⟨Or.inl source, Or.inl destination⟩
        case isFalse => exact (entangled.linked d l' member).imp kept kept }

/-- The addition of a link whose ends are pending, with the generalisation it may add. -/
theorem Entangled.linksAdd (entangled : Entangled heap pending) (inside : c < heap.concepts.size)
    (present : l < heap.links.size)
    (source : pending (heap.link l).source) (destination : pending (heap.link l).destination) :
    ∃ t, (Concept.linksAdd c l).run heap = .ok () t ∧ Entangled t pending ∧
      ¬ StandsAlone t c ∧ (∀ d, StandsAlone t d → StandsAlone heap d) ∧
        t.links = heap.links ∧ t.concepts.size = heap.concepts.size := by
  let added := heap.withLinks c ((heap.concept c).conceptLinks ++ [l])
  have first : Entangled added pending := entangled.withLinks inside present source destination
  have size : added.concepts.size = heap.concepts.size := Heap.size_concepts_withLinks inside _
  -- a link with the mark files its destination as a generalisation too
  by_cases marked : IsMarked (heap.uri (heap.link l).uri).name
  · obtain ⟨line, _, has, -, -, -⟩ := entangled.wellFormed.lines c inside
    have has' : (added.concept c).generalisations = some line :=
      (Heap.generalisations_withLinks c _ c).trans has
    have inside' : (heap.link l).destination < added.concepts.size :=
      size ▸ (entangled.wellFormed.ends l present).2
    let uri := (added.concept (heap.link l).destination).uri
    refine ⟨added.withLine line (·.add uri (heap.link l).destination), ?_,
      first.withLine uri _ inside' (Or.inl destination), ?_, ?_, rfl, size⟩
    · rw [run_linksAdd, if_pos marked]
      exact Heap.run_generalisationsAdd has' _
    · exact not_standsAlone_withLinks ∘ standsAlone_of_withLine uri _
    · exact fun d => standsAlone_of_withLinks ∘ standsAlone_of_withLine uri _
  · refine ⟨added, ?_, first, not_standsAlone_withLinks, fun d => standsAlone_of_withLinks, rfl,
      size⟩
    rw [run_linksAdd, if_neg marked]
    rfl

end LinksAdd

section WithPhrase

variable {phrases : List PhraseRef} {concepts : List ConceptRef}

/-- The heap after the creation of a phrase. -/
def Heap.withPhrase (heap : Heap) (phrases : List PhraseRef) (concepts : List ConceptRef)
    (uri : KnowledgeURI) (text : String) : Heap :=
  { heap with
    uris := heap.uris.alloc uri
    phrases := heap.phrases.alloc { phrases, concepts, uri := heap.uris.size, text } }

theorem Heap.run_constructPhrase (uri : KnowledgeURI) (text : String) :
    (AnnotatedPhrase.construct phrases concepts uri text).run heap =
      .ok heap.phrases.size (heap.withPhrase phrases concepts uri text) := rfl

theorem Heap.phrase_withPhrase (uri : KnowledgeURI) (text : String) (p : PhraseRef) :
    (heap.withPhrase phrases concepts uri text).phrase p =
      if p = heap.phrases.size then { phrases, concepts, uri := heap.uris.size, text }
      else heap.phrase p := by
  split
  case isTrue same =>
    subst same
    exact Arena.get_alloc_size ..
  case isFalse other => exact heap.phrases.get_alloc_of_ne other _

/-- A new phrase may mean concepts that are pending. -/
theorem Entangled.withPhrase (entangled : Entangled heap pending)
    (awaited : ∀ c ∈ concepts, pending c)
    (parts : ∀ q ∈ phrases, q < heap.phrases.size ∧ (heap.phrase q).concepts = [] ∧
      (heap.phrase q).phrases = [])
    (bare : concepts = [] → phrases = []) (uri : KnowledgeURI) (text : String) :
    Entangled (heap.withPhrase phrases concepts uri text) pending := by
  -- a concept that the new phrase leaves alone was alone before
  have alone : ∀ d, StandsAlone (heap.withPhrase phrases concepts uri text) d →
      StandsAlone heap d := by
    intro d alone
    refine ⟨alone.1, alone.2, alone.3, fun p member => ?_⟩
    have means := alone.phrases p member
    rw [Heap.phrase_withPhrase] at means
    split at means
    case isTrue same =>
      have none : heap.phrase p = default := heap.phrases.get_of_size_le p same.ge
      rw [none]
      rfl
    case isFalse => exact means
  have kept : ∀ {d}, pending d ∨ ¬ StandsAlone heap d →
      pending d ∨ ¬ StandsAlone (heap.withPhrase phrases concepts uri text) d :=
    related_or_pending alone
  have old : ∀ q < heap.phrases.size,
      (heap.withPhrase phrases concepts uri text).phrase q = heap.phrase q := by
    intro q present
    rw [Heap.phrase_withPhrase, if_neg present.ne]
  have size : (heap.withPhrase phrases concepts uri text).phrases.size = heap.phrases.size + 1 :=
    Arena.size_alloc ..
  -- the parts of a phrase stay without concepts and parts
  have still : ∀ q, (q < heap.phrases.size ∧ (heap.phrase q).concepts = [] ∧
      (heap.phrase q).phrases = []) →
        q < (heap.withPhrase phrases concepts uri text).phrases.size ∧
          ((heap.withPhrase phrases concepts uri text).phrase q).concepts = [] ∧
            ((heap.withPhrase phrases concepts uri text).phrase q).phrases = [] := by
    intro q known
    rw [old q known.1, size]
    exact ⟨known.1.trans (Nat.lt_succ_self _), known.2⟩
  exact
    { wellFormed := by
        apply entangled.wellFormed.withPhrases
        rw [Arena.size_alloc]
        exact Nat.le_succ _
      phraseLines := entangled.phraseLines
      filed := fun l d member => kept (entangled.filed l d member)
      meant := by
        intro p d member
        rw [Heap.phrase_withPhrase] at member
        split at member
        · exact Or.inl (awaited d member)
        · exact kept (entangled.meant p d member)
      linked := fun d l member => (entangled.linked d l member).imp kept kept
      parts := by
        intro p q member
        rw [Heap.phrase_withPhrase] at member
        split at member
        · exact still q (parts q member)
        · exact still q (entangled.parts p q member)
      bare := by
        intro p none
        rw [Heap.phrase_withPhrase] at none ⊢
        split at none
        case isTrue same => rw [if_pos same, bare none]
        case isFalse other =>
          rw [if_neg other]
          exact entangled.bare p none }

end WithPhrase

section PhrasesAdd

variable {line : LineRef}

/-- The heap after a phrase has been filed in a line. -/
def Heap.withPhraseLine (heap : Heap) (line : LineRef) (it : PhraseRef) : Heap :=
  { heap with
    phraseLines := heap.phraseLines.modify line (·.add (heap.phrase it).uri it) }

theorem Heap.run_phrasesAdd (has : (heap.concept c).phrases = some line) (it : PhraseRef) :
    (Concept.phrasesAdd c it).run heap = .ok () (heap.withPhraseLine line it) := by
  rw [Concept.phrasesAdd]
  change EStateM.run (match (heap.concept c).phrases with | some line => _ | none => _) heap = _
  rw [has]
  rfl

theorem Heap.phrasesOf_withPhraseLine (line : LineRef) (it : PhraseRef) (c : ConceptRef) :
    (heap.withPhraseLine line it).phrasesOf c =
      if (heap.concept c).phrases = some line then (heap.phrasesOf c).add (heap.phrase it).uri it
      else heap.phrasesOf c := by
  change (heap.concept c).phrases.elim {}
    (heap.phraseLines.modify line (·.add (heap.phrase it).uri it)).get = _
  rw [Heap.phrasesOf]
  cases (heap.concept c).phrases with
  | none => rfl
  | some l =>
    simp only [Option.elim_some, Arena.get_modify, Option.some_inj]
    split
    case isTrue same => rw [same]
    case isFalse => rfl

/-- A concept with a phrase that means a concept does not stand alone. -/
theorem not_standsAlone_withPhraseLine (has : (heap.concept c).phrases = some line)
    (means : (heap.phrase p).concepts ≠ []) : ¬ StandsAlone (heap.withPhraseLine line p) c := by
  intro alone
  apply means
  apply alone.phrases p
  rw [Heap.phrasesOf_withPhraseLine, if_pos has]
  exact TypedKLine.mem_values_add_self _ _ _

theorem Entangled.withPhraseLine (entangled : Entangled heap pending)
    (means : (heap.phrase p).concepts ≠ []) (line : LineRef) :
    Entangled (heap.withPhraseLine line p) pending := by
  -- a concept whose line the phrase is added to does not stand alone
  have alone : ∀ d, StandsAlone (heap.withPhraseLine line p) d → StandsAlone heap d := by
    intro d alone
    refine ⟨alone.1, alone.2, alone.3, ?_⟩
    have bare := alone.phrases
    rw [Heap.phrasesOf_withPhraseLine] at bare
    split at bare
    · exact absurd (bare p (TypedKLine.mem_values_add_self _ _ _)) means
    · exact bare
  have kept : ∀ {d}, pending d ∨ ¬ StandsAlone heap d →
      pending d ∨ ¬ StandsAlone (heap.withPhraseLine line p) d := related_or_pending alone
  exact
    { wellFormed := entangled.wellFormed.withPhrases le_rfl _ _
      phraseLines := by
        intro c inside
        obtain ⟨line', has, below⟩ := entangled.phraseLines c inside
        exact ⟨line', has, below.trans_le (Arena.size_le_size_modify ..)⟩
      filed := fun l d member => kept (entangled.filed l d member)
      meant := fun p d member => kept (entangled.meant p d member)
      linked := fun d l member => (entangled.linked d l member).imp kept kept
      parts := entangled.parts
      bare := entangled.bare }

end PhrasesAdd

end Steps

/-! ### Runs -/

section Runs

variable {heap : Heap}

theorem Entangled.createChild (entangled : Entangled heap fun _ => False) {parent : ConceptRef}
    (present : parent < heap.concepts.size) (content : String) (uri : KnowledgeURI) :
    Entangled (finalState ((discard (Concept.createChild parent content uri)).run heap))
      fun _ => False := by
  obtain ⟨_, line, -, has, -, -⟩ := entangled.wellFormed.lines parent present
  let parents := TypedKLine.add {} (heap.concept parent).uri parent
  let made := heap.constructedWith parents {} { value := content, name := content } uri
  have only : ∀ g ∈ parents.values, g = parent := fun g => Heap.eq_of_mem_parent
  -- the parent waits for the child that is filed with it
  have first : Entangled made (· = parent) := by
    have waiting : Entangled heap (· = parent) := entangled.mono fun _ never => never.elim
    exact waiting.constructedWith parents _ _ _ (fun g member => only g member ▸ present) only
  have child : ¬ StandsAlone made heap.concepts.size := by
    intro alone
    have none : ((heap.constructed parents { value := content, name := content }
        uri).generalisations heap.concepts.size).values = [] := alone.generalisations
    rw [Heap.generalisations_constructed _ _ _ entangled.wellFormed, if_pos rfl] at none
    exact TypedKLine.values_add_ne_nil _ _ _ none
  have inside : heap.concepts.size < made.concepts.size := by
    change _ < (heap.constructed parents { value := content, name := content } uri).concepts.size
    rw [Heap.size_concepts_constructed]
    exact Nat.lt_succ_self _
  have has' : (made.concept parent).specialisations = some line :=
    (congrArg Concept.specialisations
      (Heap.concept_constructed_of_ne parents _ uri present.ne)).trans has
  have filed : Entangled (made.withLine line (·.add heap.uris.size heap.concepts.size))
      (· = parent) := first.withLine _ _ inside (Or.inr child)
  have done := not_standsAlone_withLine heap.uris.size heap.concepts.size has'
  rw [finalState_discard, Heap.run_createChild present has content uri]
  exact filed.mono fun d same => Or.inr (same ▸ done)

theorem Entangled.phraseOf (entangled : Entangled heap fun _ => False) {c : ConceptRef}
    (present : c < heap.concepts.size) (word : String) :
    Entangled (finalState ((discard (AnnotatedPhrase.ofWordAndConcept word c)).run heap))
      fun _ => False := by
  obtain ⟨line, has, -⟩ := entangled.phraseLines c present
  let empty := heap.withPhrase [] [] { name := word ++ "EmptyPhrase" } word
  let made := empty.withPhrase [heap.phrases.size] [c] { name := word ++ "Phrase" } word
  -- the concept waits for the phrase that means it, which is made after its part
  have waiting : Entangled heap (· = c) := entangled.mono fun _ never => never.elim
  have first : Entangled empty (· = c) := by
    refine waiting.withPhrase (fun _ none => ?_) (fun _ none => ?_) (fun _ => rfl) _ word
    · cases none
    · cases none
  have second : Entangled made (· = c) := by
    apply first.withPhrase
    · exact fun d member => List.mem_singleton.mp member
    · intro q member
      rw [List.mem_singleton] at member
      subst member
      rw [Heap.phrase_withPhrase, if_pos rfl]
      refine ⟨?_, rfl, rfl⟩
      exact (Arena.size_alloc .. : empty.phrases.size = _) ▸ Nat.lt_succ_self _
    · exact fun none => absurd none (List.cons_ne_nil _ _)
  have means : (made.phrase empty.phrases.size).concepts ≠ [] := by
    rw [Heap.phrase_withPhrase, if_pos rfl]
    exact List.cons_ne_nil _ _
  have third := second.withPhraseLine means line
  have has' : (made.concept c).phrases = some line := has
  have done := not_standsAlone_withPhraseLine has' means
  have run : (AnnotatedPhrase.ofWordAndConcept word c).run heap =
      .ok empty.phrases.size (made.withPhraseLine line empty.phrases.size) := by
    change (Concept.phrasesAdd c empty.phrases.size >>= fun _ =>
      pure empty.phrases.size).run made = _
    rw [EStateM.run_bind, Heap.run_phrasesAdd has']
    rfl
  rw [finalState_discard, run]
  exact third.mono fun d same => Or.inr (same ▸ done)

theorem Entangled.createSubConceptLink (entangled : Entangled heap fun _ => False)
    {source destination : ConceptRef}
    (inside : source < heap.concepts.size ∧ destination < heap.concepts.size) (parent : LinkRef)
    (name : String) (probability : Probability) :
    Entangled (finalState ((discard (ConceptLink.createSubConceptLink parent source destination
      name probability)).run heap)) fun _ => False := by
  -- both ends wait for the link, which is added to one of them after the other
  let unfiled := heap.withLink source destination { name } probability
  let linked := unfiled.withLinkLines (unfiled.filedUnder parent heap.links.size)
  let waits : ConceptRef → Prop := fun d => d = source ∨ d = destination
  have waiting : Entangled linked waits :=
    ((entangled.mono fun _ never => never.elim).withLink inside _ probability).withLinkLines _
  have made : linked.link heap.links.size =
      { source, destination, uri := heap.uris.size, probability } := Arena.get_alloc_size ..
  have present : heap.links.size < linked.links.size :=
    (Arena.size_alloc .. : linked.links.size = _) ▸ Nat.lt_succ_self _
  have ends : waits (linked.link heap.links.size).source ∧
      waits (linked.link heap.links.size).destination := by
    rw [made]
    exact ⟨Or.inl rfl, Or.inr rfl⟩
  obtain ⟨t, run, kept, known, -, sameLinks, sameSize⟩ :=
    waiting.linksAdd inside.1 present ends.1 ends.2
  -- the first of the two lets the link be as it was made
  have sameLink : t.link heap.links.size = linked.link heap.links.size := by
    rw [Heap.link, sameLinks]
    rfl
  obtain ⟨t', run', kept', known', alone, -, -⟩ := kept.linksAdd
    (sameSize ▸ inside.2 : destination < t.concepts.size) (sameLinks ▸ present)
    (sameLink ▸ ends.1) (sameLink ▸ ends.2)
  have whole : (ConceptLink.createSubConceptLink parent source destination name probability).run
      heap = .ok heap.links.size t' := by
    change (Concept.linksAdd source heap.links.size >>= fun _ =>
      Concept.linksAdd destination heap.links.size >>= fun _ => pure heap.links.size).run linked = _
    rw [EStateM.run_bind, run]
    change (Concept.linksAdd destination heap.links.size >>= fun _ =>
      pure heap.links.size).run t = _
    rw [EStateM.run_bind, run']
    rfl
  rw [finalState_discard, whole]
  apply kept'.mono
  rintro d (rfl | rfl)
  · exact Or.inr (known ∘ alone _)
  · exact Or.inr known'

/-- No factory leaves a concept that is referred to, and refers to nothing itself. -/
theorem Entangled.perform (entangled : Entangled heap fun _ => False) {call : FactoryCall}
    (refers : call.Refers heap) :
    Entangled (finalState (call.perform.run heap)) fun _ => False := by
  -- a concept without parents waits for nothing
  have construct : ∀ phrases content uri,
      Entangled (heap.constructedWith {} phrases content uri) fun _ => False :=
    fun phrases content uri => entangled.constructedWith {} phrases content uri
      (fun _ none => absurd none List.not_mem_nil) fun _ none => absurd none List.not_mem_nil
  cases call with
  | concept name => exact construct {} { value := name, name := name } { name := name ++ conceptSuffix }
  | createSubConcept parent name => exact entangled.createChild refers name { name }
  | createInstanceConcept parent uid =>
    exact entangled.createChild refers (heap.uriOf parent).name
      { name := (heap.uriOf parent).name, uid }
  | createInstanceConceptOf parent content uid =>
    exact entangled.createChild refers content { name := (heap.uriOf parent).name, uid }
  | createInstanceNamed instanceName uid =>
    exact construct {} { value := instanceName, name := instanceName } { name := instanceName, uid }
  | createInstanceOfPhrase instanceName p uid =>
    exact construct (TypedKLine.add {} (heap.phrase p).uri p)
      { value := instanceName, name := instanceName } { name := instanceName, uid }
  | phrase word =>
    refine entangled.withPhrase (fun _ none => ?_) (fun _ none => ?_) (fun _ => rfl)
      { name := word ++ "EmptyPhrase" } word
    · cases none
    · cases none
  | phraseOf word c => exact entangled.phraseOf refers word
  | createSubConceptLink parent source destination name probability =>
    exact entangled.createSubConceptLink refers parent name probability

theorem entangled_empty : Entangled {} fun _ => False where
  wellFormed := Heap.wellFormed_empty
  phraseLines _ inside := absurd inside (Nat.not_lt_zero _)
  filed _ _ member := nomatch member
  meant _ _ member := nomatch member
  linked _ _ member := nomatch member
  parts _ _ member := nomatch member
  bare _ _ := rfl

/-- The concepts that a link of a concept leads to are related. -/
theorem Entangled.not_standsAlone_of_mem_linkedEnds (entangled : Entangled heap fun _ => False)
    {c d : ConceptRef} (member : d ∈ Concept.linkedEnds heap c) : ¬ StandsAlone heap d := by
  obtain ⟨link, present, same⟩ := List.mem_map.mp member
  obtain ⟨l, linked, rfl⟩ := List.mem_map.mp present
  obtain ⟨source, destination⟩ := entangled.linked c l linked
  split at same
  · exact same ▸ source.resolve_left not_false
  · exact same ▸ destination.resolve_left not_false

/-- After any calls of the factories, a concept has a hash code exactly when it stands alone,
a line of knowledge of concepts when it is empty, and a phrase when it means no concept. A
merge returns when this is so for all that was not understood, and the linked concepts of a
concept are found when there are at most four of them. -/
theorem hashTerminates_iff_of_reachable (mix : HashedObject → List Int32 → Int32) (heap : Heap)
    (reached : Reachable FactoryCall.perform (fun heap call => call.Refers heap) {} heap) :
    (∀ c, HashTerminates mix heap (.concept c) ↔ StandsAlone heap c) ∧
    (∀ l, HashTerminates mix heap (.conceptLine l) ↔ (heap.conceptLines.get l).values = []) ∧
    (∀ l, HashTerminates mix heap (.phraseLine l) ↔
      ∀ p ∈ (heap.phraseLines.get l).values, (heap.phrase p).concepts = []) ∧
    (∀ p, HashTerminates mix heap (.phrase p) ↔ (heap.phrase p).concepts = []) ∧
    (∀ baseContext supplementalContexts,
      (∃ stack, (ContextHelper.mergeHashed (fun c => hashCode mix heap stack (.concept c))
        (fun p => hashCode mix heap stack (.phrase p)) baseContext supplementalContexts).isSome) ↔
        (∀ context ∈ baseContext :: supplementalContexts,
          ∀ p ∈ context.notUnderstoodPhrases, (heap.phrase p).concepts = []) ∧
        ∀ context ∈ baseContext :: supplementalContexts,
          ∀ c ∈ context.notUnderstoodConcepts, StandsAlone heap c) ∧
    ∀ c, (∃ stack, (Concept.linkedConcepts (hashCode mix heap stack) heap c).isSome) ↔
      (Concept.linkedEnds heap c).toFinset.card ≤ 4 := by
  have entangled : Entangled heap fun _ => False :=
    Reachable.invariant (I := fun heap => Entangled heap fun _ => False) entangled_empty
      (fun _ _ entangled refers => entangled.perform refers) reached
  have ends : ∀ o, HashTerminates mix heap o ↔ ¬ LeadsOn heap o := fun o =>
    hashTerminates_iff_acc.trans entangled.acc_iff
  have concepts : ∀ c, HashTerminates mix heap (.concept c) ↔ StandsAlone heap c := fun c =>
    (ends _).trans not_not
  have phrases : ∀ p, HashTerminates mix heap (.phrase p) ↔ (heap.phrase p).concepts = [] :=
    fun p => (ends _).trans not_not
  refine ⟨concepts, fun l => (ends _).trans not_not, fun l => ?_, phrases, ?_, fun c => ?_⟩
  · rw [ends, LeadsOn]
    push Not
    rfl
  · intro baseContext supplementalContexts
    rw [ContextHelper.exists_isSome_mergeHashed_iff]
    simp only [concepts, phrases]
  · rw [Concept.exists_isSome_linkedConcepts_iff]
    -- none of the linked concepts has a hash code
    refine or_iff_left_of_imp fun all => ?_
    have none : Concept.linkedEnds heap c = [] := by
      rw [List.eq_nil_iff_forall_not_mem]
      exact fun d member =>
        entangled.not_standsAlone_of_mem_linkedEnds member ((concepts d).mp (all d member))
    rw [none]
    exact Nat.zero_le _

/-! ### A user, a person and a letter -/

/-- A person, a user who is one, the word for the user, and a letter. -/
def userAndLetter : List FactoryCall :=
  [.concept "person", .createSubConcept 0 "user", .phraseOf "user" 1,
    .createInstanceNamed "letter" "8"]

/-- The letter has a hash code, and the person has none. -/
theorem userAndLetter_hashTerminates :
    HashTerminates (fun _ _ => 0) (runAll FactoryCall.perform userAndLetter {}) (.concept 2) ∧
    ¬ HashTerminates (fun _ _ => 0) (runAll FactoryCall.perform userAndLetter {}) (.concept 0) := by
  have reached : Reachable FactoryCall.perform (fun heap call => call.Refers heap) {}
      (runAll FactoryCall.perform userAndLetter {}) := by
    apply Reachable.start.runAll
    exact ⟨trivial, Nat.zero_lt_one, Nat.one_lt_two, trivial, trivial⟩
  have children : ((runAll FactoryCall.perform userAndLetter {}).specialisations 0).values = [1] := by
    decide +kernel
  have known := (hashTerminates_iff_of_reachable (fun _ _ => 0) _ reached).1
  constructor
  · rw [known]
    exact ⟨by decide +kernel, by decide +kernel, by decide +kernel, by decide +kernel⟩
  · rw [known]
    intro alone
    rw [alone.specialisations] at children
    cases children

/-- A person and a user who is one. -/
def userOfPerson : List FactoryCall := [.concept "person", .createSubConcept 0 "user"]

/-- The hash code of the user asks for that of the person, and the other way round. No merge
of a context in which the user was not understood returns. -/
theorem userOfPerson_never_hashed :
    Reachable FactoryCall.perform (fun heap call => call.Refers heap) {}
      (runAll FactoryCall.perform userOfPerson {}) ∧
    ∀ mix, ¬ HashTerminates mix (runAll FactoryCall.perform userOfPerson {}) (.concept 1) ∧
      ∀ stack, ContextHelper.mergeHashed
        (fun c => hashCode mix (runAll FactoryCall.perform userOfPerson {}) stack (.concept c))
        (fun p => hashCode mix (runAll FactoryCall.perform userOfPerson {}) stack (.phrase p))
        { notUnderstoodConcepts := [1] } [] = none := by
  let heap := runAll FactoryCall.perform userOfPerson {}
  -- the parent and the child lead to each other through the lines that file them
  let circle : List HashedObject := [.concept 0, .conceptLine 1, .concept 1, .conceptLine 2]
  have turns : ∀ a ∈ circle, ∃ b ∈ a.fields heap, b ∈ circle := by decide +kernel
  have never : ∀ mix, ¬ HashTerminates mix heap (.concept 1) := by
    intro mix
    rw [hashTerminates_iff_acc]
    exact not_acc_of_exists_next turns (by decide +kernel)
  constructor
  · apply Reachable.start.runAll
    exact ⟨trivial, Nat.zero_lt_one, trivial⟩
  · intro mix
    refine ⟨never mix, fun stack => ?_⟩
    rw [← Option.not_isSome_iff_eq_none]
    intro returns
    rw [ContextHelper.isSome_mergeHashed_iff] at returns
    exact never mix ⟨stack, returns.2 _ List.mem_cons_self 1 List.mem_cons_self⟩

end Runs

end ThinkingUnderstanding
