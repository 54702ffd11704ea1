import ThinkingUnderstanding.Parsing.Annotator

/-!
# Do phrases and concepts point at each other?

A phrase has a list of concepts, and a concept has a line of phrases. These are fields of their
own, and each is written by the code that changes it. Most factories of phrases and the link
parser write both. Two factories write the concepts of the phrase only, and so does the
annotator, which besides replaces the concepts that the phrase had.

As long as such a step changes nothing, phrases and concepts point at each other.

## Main definitions

* `Heap.Paired` — phrases and concepts point at each other
* `Heap.Lined` — every concept has a line of phrases of its own
* `PipelineStep`, `PipelineStep.PointsBack` — the steps, and when one changes both sides

## Main results

* `lined_perform`, `paired_perform_iff` — what one step keeps
* `paired_throughout_iff` — when phrases and concepts point at each other all along a run
-/

namespace ThinkingUnderstanding

open Math Semantics

/-- A concept is among those of a phrase exactly when the phrase is among those of the concept. -/
def Heap.Paired (heap : Heap) : Prop :=
  ∀ c p, c ∈ (heap.phrase p).concepts ↔ p ∈ (heap.phrasesOf c).values

/-- Every concept has a line of phrases of its own. Phrases are filed under URIs that exist. -/
structure Heap.Lined (heap : Heap) : Prop where
  lines : ∀ c < heap.concepts.size, ∃ line, (heap.concept c).phrases = some line ∧
    line < heap.phraseLines.size
  own : ∀ c d line, (heap.concept c).phrases = some line →
    (heap.concept d).phrases = some line → c = d
  frames : ∀ line, ∀ u ∈ (heap.phraseLines.get line).keys, u < heap.uris.size
  uris : ∀ p < heap.phrases.size, (heap.phrase p).uri < heap.uris.size

/-- The step keeps lines apart, and with them that phrases and concepts point at each other. -/
structure KeepsPairs (heap t : Heap) : Prop where
  lined : heap.Lined → t.Lined
  paired : heap.Lined → heap.Paired → t.Paired
  size : heap.concepts.size ≤ t.concepts.size

instance : IsPreorder Heap KeepsPairs where
  refl _ := ⟨id, fun _ => id, le_rfl⟩
  trans _ _ _ first second :=
    ⟨second.lined ∘ first.lined,
      fun lined => second.paired (first.lined lined) ∘ first.paired lined,
      first.size.trans second.size⟩

section Steps

variable {heap : Heap} {c d : ConceptRef} {p it : PhraseRef} {line : LineRef}

theorem Heap.Lined.line_lt (lined : heap.Lined) (has : (heap.concept c).phrases = some line) :
    line < heap.phraseLines.size := by
  rcases lt_or_ge c heap.concepts.size with inside | beyond
  · obtain ⟨line', has', below⟩ := lined.lines c inside
    rw [has, Option.some_inj] at has'
    exact has' ▸ below
  · rw [Heap.concept_of_size_le beyond] at has
    cases has

/-- Where there is no concept, there are no phrases. -/
theorem Heap.phrasesOf_of_size_le (beyond : heap.concepts.size ≤ c) : heap.phrasesOf c = {} := by
  rw [Heap.phrasesOf, Heap.concept_of_size_le beyond]
  rfl

/-! ### A new concept -/

section Constructed

theorem Heap.Lined.constructedWith (lined : heap.Lined) (generalisations : TypedKLine ConceptRef)
    (phrases : TypedKLine PhraseRef) (keys : ∀ u ∈ phrases.keys, u < heap.uris.size)
    (content : KnowledgeString) (uri : KnowledgeURI) :
    (heap.constructedWith generalisations phrases content uri).Lined := by
  let made := heap.constructedWith generalisations phrases content uri
  have old : ∀ c, c ≠ heap.concepts.size → made.concept c = heap.concept c :=
    fun c other => Heap.concept_constructed_of_ne _ _ uri other
  -- the new concept gets a line of its own, which no old concept has
  have new : (made.concept heap.concepts.size).phrases = some heap.phraseLines.size :=
    congrArg Concept.phrases (Heap.concept_constructed_self generalisations content uri)
  have size : made.phraseLines.size = heap.phraseLines.size + 1 := Arena.size_alloc ..
  have grown : heap.uris.size < made.uris.size := by
    have same : made.uris.size = heap.uris.size + 1 := Arena.size_alloc ..
    exact same ▸ Nat.lt_succ_self _
  constructor
  case lines =>
    intro c inside
    by_cases same : c = heap.concepts.size
    · exact ⟨_, same ▸ new, size ▸ Nat.lt_succ_self _⟩
    · have inside' : c < heap.concepts.size + 1 := by
        rw [← Heap.size_concepts_constructed generalisations content uri]
        exact inside
      obtain ⟨line, has, below⟩ :=
        lined.lines c ((Nat.lt_succ_iff_lt_or_eq.mp inside').resolve_right same)
      exact ⟨line, (congrArg Concept.phrases (old c same)).trans has,
        below.trans (size ▸ Nat.lt_succ_self _)⟩
  case own =>
    intro c d line has has'
    by_cases first : c = heap.concepts.size
    · by_cases second : d = heap.concepts.size
      · exact first.trans second.symm
      · rw [old d second] at has'
        rw [first, new, Option.some_inj] at has
        exact absurd has (lined.line_lt has').ne'
    · rw [old c first] at has
      by_cases second : d = heap.concepts.size
      · rw [second, new, Option.some_inj] at has'
        exact absurd has' (lined.line_lt has).ne'
      · rw [old d second] at has'
        exact lined.own c d line has has'
  case frames =>
    intro line u member
    change u ∈ ((heap.phraseLines.alloc phrases).get line).keys at member
    rw [Arena.alloc, Arena.get_modify] at member
    split at member
    · exact (keys u member).trans grown
    · exact (lined.frames line u member).trans grown
  case uris => exact fun p inside => (lined.uris p inside).trans grown

/-- The new concept has the given phrases; the others keep theirs. -/
theorem Heap.phrasesOf_constructedWith (lined : heap.Lined)
    (generalisations : TypedKLine ConceptRef) (phrases : TypedKLine PhraseRef)
    (content : KnowledgeString) (uri : KnowledgeURI) (c : ConceptRef) :
    (heap.constructedWith generalisations phrases content uri).phrasesOf c =
      if c = heap.concepts.size then phrases else heap.phrasesOf c := by
  rw [Heap.phrasesOf]
  split
  case isTrue same =>
    have new : ((heap.constructedWith generalisations phrases content uri).concept c).phrases =
        some heap.phraseLines.size := by
      rw [same]
      exact congrArg Concept.phrases (Heap.concept_constructed_self generalisations content uri)
    rw [new]
    exact Arena.get_alloc_size ..
  case isFalse other =>
    have old : (heap.constructedWith generalisations phrases content uri).concept c =
        heap.concept c := Heap.concept_constructed_of_ne _ _ uri other
    rw [old, Heap.phrasesOf]
    cases has : (heap.concept c).phrases with
    | none => rfl
    | some line => exact heap.phraseLines.get_alloc_of_lt (lined.line_lt has) _

/-- A concept without phrases. -/
theorem keepsPairs_constructed (heap : Heap) (generalisations : TypedKLine ConceptRef)
    (content : KnowledgeString) (uri : KnowledgeURI) :
    KeepsPairs heap (heap.constructed generalisations content uri) where
  lined lined := lined.constructedWith generalisations {}
    (fun _ member => absurd member List.not_mem_nil) content uri
  paired lined paired c p := by
    have phrases := Heap.phrasesOf_constructedWith lined generalisations {} content uri c
    change (heap.constructed generalisations content uri).phrasesOf c = _ at phrases
    rw [phrases]
    split
    case isTrue same =>
      refine iff_of_false (fun member => ?_) List.not_mem_nil
      have filed := (paired c p).mp member
      rw [Heap.phrasesOf_of_size_le same.ge] at filed
      cases filed
    case isFalse => exact paired c p
  size := (Heap.size_concepts_constructed ..).symm ▸ Nat.le_succ _

end Constructed

/-! ### A new phrase -/

section Phrase

variable {parts : List PhraseRef} {concepts : List ConceptRef}

theorem Heap.Lined.withPhrase (lined : heap.Lined) (uri : KnowledgeURI) (text : String) :
    (heap.withPhrase parts concepts uri text).Lined := by
  have size : (heap.withPhrase parts concepts uri text).phrases.size = heap.phrases.size + 1 :=
    Arena.size_alloc ..
  have grown : heap.uris.size < (heap.withPhrase parts concepts uri text).uris.size := by
    have same : (heap.withPhrase parts concepts uri text).uris.size = heap.uris.size + 1 :=
      Arena.size_alloc ..
    exact same ▸ Nat.lt_succ_self _
  constructor
  case lines => exact lined.lines
  case own => exact lined.own
  case frames =>
    exact fun line u member => (lined.frames line u member).trans grown
  case uris =>
    intro p inside
    rw [Heap.phrase_withPhrase]
    split
    case isTrue => exact grown
    case isFalse other =>
      rw [size] at inside
      exact (lined.uris p ((Nat.lt_succ_iff_lt_or_eq.mp inside).resolve_right other)).trans grown

/-- The concepts of the new phrase, and those that phrases had. -/
theorem Heap.mem_concepts_withPhrase (uri : KnowledgeURI) (text : String) :
    c ∈ ((heap.withPhrase parts concepts uri text).phrase p).concepts ↔
      (p = heap.phrases.size ∧ c ∈ concepts) ∨ c ∈ (heap.phrase p).concepts := by
  rw [Heap.phrase_withPhrase]
  split
  case isTrue same =>
    have none : heap.phrase p = default := heap.phrases.get_of_size_le p same.ge
    rw [none]
    constructor
    · exact fun member => Or.inl ⟨same, member⟩
    · rintro (⟨-, member⟩ | absent)
      · exact member
      · cases absent
  case isFalse other => simp [other]

/-- A phrase that is told its concepts, and none of these the phrase: they point at each other
only if there are none. -/
theorem Heap.Paired.withPhrase_iff (paired : heap.Paired) (uri : KnowledgeURI) (text : String) :
    (heap.withPhrase parts concepts uri text).Paired ↔ concepts = [] := by
  constructor
  · intro paired'
    rw [List.eq_nil_iff_forall_not_mem]
    intro c member
    have filed := (paired' c heap.phrases.size).mp
      ((Heap.mem_concepts_withPhrase uri text).mpr (Or.inl ⟨rfl, member⟩))
    have old := (paired c heap.phrases.size).mpr filed
    rw [Heap.phrase, heap.phrases.get_of_size_le _ le_rfl] at old
    cases old
  · rintro rfl c p
    rw [Heap.mem_concepts_withPhrase]
    exact (or_iff_right fun new => List.not_mem_nil new.2).trans (paired c p)

end Phrase

/-! ### A phrase among those of a concept -/

theorem TypedKLine.mem_values_add_of_only {τ : Type*} {line : TypedKLine τ} {uri : UriRef}
    {resource r : τ} (only : ∀ r, (uri, r) ∈ line.frames.entries → r = resource) :
    r ∈ (line.add uri resource).values ↔ r = resource ∨ r ∈ line.values := by
  constructor
  · exact TypedKLine.eq_or_mem_of_mem_values_add
  · rintro (rfl | old)
    · exact TypedKLine.mem_values_add_self line uri r
    · obtain ⟨u, entry⟩ := TypedKLine.mem_values_iff.mp old
      rw [TypedKLine.mem_values_iff]
      by_cases same : u = uri
      · subst same
        exact ⟨u, InsertionMap.mem_entries_insert.mpr (Or.inl ⟨rfl, only r entry⟩)⟩
      · exact ⟨u, InsertionMap.mem_entries_insert.mpr (Or.inr ⟨same, entry⟩)⟩

theorem Heap.Lined.withPhraseLine (lined : heap.Lined) (present : it < heap.phrases.size)
    (line : LineRef) : (heap.withPhraseLine line it).Lined where
  lines c inside := by
    obtain ⟨line', has, below⟩ := lined.lines c inside
    exact ⟨line', has, below.trans_le (Arena.size_le_size_modify ..)⟩
  own := lined.own
  frames l u member := by
    change u ∈ ((heap.phraseLines.modify line (·.add (heap.phrase it).uri it)).get l).keys at member
    rw [Arena.get_modify] at member
    split at member
    · rw [TypedKLine.keys, TypedKLine.add, InsertionMap.mem_keys_insert] at member
      rcases member with rfl | old
      · exact lined.uris it present
      · exact lined.frames line u old
    · exact lined.frames l u member
  uris := lined.uris

/-- Nothing but the phrase is filed under its URI. -/
def FiledAlone (heap : Heap) (it : PhraseRef) : Prop :=
  ∀ c q, ((heap.phrase it).uri, q) ∈ (heap.phrasesOf c).frames.entries → q = it

theorem Heap.mem_phrasesOf_withPhraseLine (lined : heap.Lined)
    (has : (heap.concept d).phrases = some line)
    (alone : ∀ q, ((heap.phrase it).uri, q) ∈ (heap.phrasesOf d).frames.entries → q = it) :
    p ∈ ((heap.withPhraseLine line it).phrasesOf c).values ↔
      (c = d ∧ p = it) ∨ p ∈ (heap.phrasesOf c).values := by
  rw [Heap.phrasesOf_withPhraseLine]
  split
  case isTrue has' =>
    obtain rfl := lined.own c d line has' has
    rw [TypedKLine.mem_values_add_of_only alone, and_iff_right rfl]
  case isFalse other =>
    have apart : c ≠ d := fun same => other (same ▸ has)
    exact (or_iff_right fun new => apart new.1).symm

theorem FiledAlone.withPhraseLine (alone : FiledAlone heap it) (line : LineRef) :
    FiledAlone (heap.withPhraseLine line it) it := by
  intro c q entry
  rw [Heap.phrasesOf_withPhraseLine] at entry
  change ((heap.phrase it).uri, q) ∈ _ at entry
  split at entry
  · rcases InsertionMap.mem_entries_insert.mp entry with ⟨-, same⟩ | ⟨-, old⟩
    · exact same
    · exact alone c q old
  · exact alone c q entry

/-- The phrase has been filed with all of the concepts. -/
structure FiledWith (heap : Heap) (concepts : List ConceptRef) (it : PhraseRef) (t : Heap) :
    Prop where
  lined : t.Lined
  samePhrases : t.phrases = heap.phrases
  sameConcepts : t.concepts = heap.concepts
  mem_phrasesOf_iff : ∀ c p, p ∈ (t.phrasesOf c).values ↔
    (c ∈ concepts ∧ p = it) ∨ p ∈ (heap.phrasesOf c).values

theorem run_forM_phrasesAdd {concepts : List ConceptRef} (lined : heap.Lined)
    (present : it < heap.phrases.size) (alone : FiledAlone heap it)
    (inside : ∀ c ∈ concepts, c < heap.concepts.size) :
    ∃ t, (forM concepts fun c => Concept.phrasesAdd c it).run heap = .ok () t ∧
      FiledWith heap concepts it t := by
  induction concepts generalizing heap with
  | nil => exact ⟨heap, rfl, lined, rfl, rfl, fun c p => by simp⟩
  | cons d rest ih =>
    rw [List.forall_mem_cons] at inside
    obtain ⟨line, has, -⟩ := lined.lines d inside.1
    obtain ⟨t, run, filed⟩ := ih (lined.withPhraseLine present line) present
      (alone.withPhraseLine line) inside.2
    refine ⟨t, ?_, filed.lined, filed.samePhrases, filed.sameConcepts, fun c p => ?_⟩
    · rw [List.forM_cons, EStateM.run_bind, Heap.run_phrasesAdd has]
      exact run
    · rw [filed.mem_phrasesOf_iff, Heap.mem_phrasesOf_withPhraseLine lined has (alone d),
        List.mem_cons]
      tauto

/-! ### The factories -/

section Factories

variable {concepts : List ConceptRef}

/-- A new phrase is filed with all of its concepts. -/
theorem keepsPairs_phrase (parts : List PhraseRef) (uri : KnowledgeURI) (text : String)
    (lined : heap.Lined)
    (inside : ∀ c ∈ concepts, c < heap.concepts.size) :
    ∃ t, (forM concepts fun c => Concept.phrasesAdd c heap.phrases.size).run
        (heap.withPhrase parts concepts uri text) = .ok () t ∧ KeepsPairs heap t := by
  let made := heap.withPhrase parts concepts uri text
  have present : heap.phrases.size < made.phrases.size := by
    have size : made.phrases.size = heap.phrases.size + 1 := Arena.size_alloc ..
    exact size ▸ Nat.lt_succ_self _
  have alone : FiledAlone made heap.phrases.size := by
    -- its URI is new
    intro c q entry
    have uri' : (made.phrase heap.phrases.size).uri = heap.uris.size := by
      rw [Heap.phrase_withPhrase, if_pos rfl]
    rw [uri'] at entry
    have old : (heap.uris.size, q) ∈ (heap.phrasesOf c).frames.entries := entry
    rw [Heap.phrasesOf] at old
    cases has : (heap.concept c).phrases with
    | none =>
      rw [has] at old
      cases old
    | some line =>
      rw [has] at old
      exact absurd rfl (lined.frames line _ (InsertionMap.mem_keys_of_mem_entries old)).ne
  obtain ⟨t, run, filed⟩ := run_forM_phrasesAdd (lined.withPhrase uri text) present alone inside
  refine ⟨t, run, fun _ => filed.lined, fun _ paired c p => ?_, filed.sameConcepts ▸ le_rfl⟩
  have phrase : t.phrase p = made.phrase p := congrArg (Arena.get · p) filed.samePhrases
  rw [phrase, Heap.mem_concepts_withPhrase, filed.mem_phrasesOf_iff, paired c p, and_comm]
  rfl

theorem phrasesAdd_eq_forM (c : ConceptRef) (it : PhraseRef) :
    Concept.phrasesAdd c it = forM [c] fun c => Concept.phrasesAdd c it := by
  simp

theorem respects_ofWord (word : String) :
    Respects KeepsPairs (AnnotatedPhrase.ofWord word) := by
  intro heap
  exact ⟨fun lined => lined.withPhrase _ _, fun _ paired => (paired.withPhrase_iff _ _).mpr rfl,
    le_rfl⟩

/-- What a factory does with the parts of its phrase. -/
theorem keepsPairs_of_parts {program : GraphProgram α} {f : α → List PhraseRef}
    (first : Respects KeepsPairs program) (uri : KnowledgeURI) (text : String) (lined : heap.Lined)
    (inside : ∀ c ∈ concepts, c < heap.concepts.size) :
    KeepsPairs heap (finalState ((do
      let parts ← program
      let it ← AnnotatedPhrase.construct (f parts) concepts uri text
      forM concepts fun c => Concept.phrasesAdd c it
      return it : GraphProgram PhraseRef).run heap)) := by
  have before := first heap
  apply relates_bind before
  intro parts m run
  rw [run, finalState_ok] at before
  obtain ⟨t, filed, keeps⟩ := keepsPairs_phrase (f parts) uri text (before.lined lined)
    fun c member => (inside c member).trans_le before.size
  change KeepsPairs m (finalState ((forM concepts (fun c => Concept.phrasesAdd c m.phrases.size) >>=
    fun _ => pure m.phrases.size).run (m.withPhrase (f parts) concepts uri text)))
  rw [EStateM.run_bind, filed]
  exact keeps

theorem keepsPairs_ofWordAndConcepts (word : String) (lined : heap.Lined)
    (inside : ∀ c ∈ concepts, c < heap.concepts.size) :
    KeepsPairs heap (finalState ((AnnotatedPhrase.ofWordAndConcepts word concepts).run heap)) :=
  keepsPairs_of_parts (f := fun empty => [empty]) (respects_ofWord word) _ word lined inside

theorem keepsPairs_ofWordAndConcept (word : String) (lined : heap.Lined)
    (inside : c < heap.concepts.size) :
    KeepsPairs heap (finalState ((AnnotatedPhrase.ofWordAndConcept word c).run heap)) := by
  have same : AnnotatedPhrase.ofWordAndConcept word c =
      AnnotatedPhrase.ofWordAndConcepts word [c] := by
    rw [AnnotatedPhrase.ofWordAndConcept, AnnotatedPhrase.ofWordAndConcepts]
    simp only [← phrasesAdd_eq_forM]
  rw [same]
  exact keepsPairs_ofWordAndConcepts word lined (List.forall_mem_singleton.mpr inside)

theorem keepsPairs_ofWordsAndConcept (words : List String) (lined : heap.Lined)
    (inside : c < heap.concepts.size) :
    KeepsPairs heap (finalState ((AnnotatedPhrase.ofWordsAndConcept words c).run heap)) := by
  rw [AnnotatedPhrase.ofWordsAndConcept]
  simp only [phrasesAdd_eq_forM c]
  exact keepsPairs_of_parts (f := id) (Respects.mapM words fun word _ => respects_ofWord word) _ _
    lined (List.forall_mem_singleton.mpr inside)

theorem respects_create (name : String) : Respects KeepsPairs (Concept.create name) :=
  fun heap => keepsPairs_constructed heap {} _ _

theorem respects_createSubConcept (parent : ConceptRef) (name : String) :
    Respects KeepsPairs (Concept.createSubConcept parent name) := by
  intro heap
  have made := keepsPairs_constructed heap (TypedKLine.add {} (heap.concept parent).uri parent)
    { value := name, name := name } { name }
  -- what specialises the parent does not matter here
  have filing : Respects KeepsPairs (Concept.specialisationsAdd parent heap.concepts.size) := by
    intro m
    simp only [Concept.specialisationsAdd, EStateM.run_bind, EStateM.run_get]
    cases (m.concept parent).specialisations with
    | none => exact refl m
    | some line => exact ⟨fun lined => ⟨lined.1, lined.2, lined.3, lined.4⟩, fun _ => id, le_rfl⟩
  change KeepsPairs heap (finalState ((Concept.specialisationsAdd parent heap.concepts.size >>=
    fun _ => pure heap.concepts.size).run (heap.constructed _ _ _)))
  refine IsTrans.trans _ _ _ made ?_
  exact (filing.bind fun _ => respects_pure _) _

end Factories

/-! ### The annotator and the link parser -/

/-- The heap after a phrase has been given other concepts. -/
def Heap.withConcepts (heap : Heap) (p : PhraseRef) (f : List ConceptRef → List ConceptRef) :
    Heap :=
  { heap with phrases := heap.phrases.modify p fun phrase =>
      { phrase with concepts := f phrase.concepts } }

theorem Heap.phrase_withConcepts (f : List ConceptRef → List ConceptRef) (q : PhraseRef) :
    (heap.withConcepts p f).phrase q =
      if q = p then { heap.phrase p with concepts := f (heap.phrase p).concepts }
      else heap.phrase q :=
  heap.phrases.get_modify p q fun phrase => { phrase with concepts := f phrase.concepts }

theorem Heap.Lined.withConcepts (lined : heap.Lined) (present : p < heap.phrases.size)
    (f : List ConceptRef → List ConceptRef) : (heap.withConcepts p f).Lined where
  lines := lined.lines
  own := lined.own
  frames := lined.frames
  uris q inside := by
    have size : (heap.withConcepts p f).phrases.size = heap.phrases.size := max_eq_left present
    rw [size] at inside
    rw [Heap.phrase_withConcepts]
    split
    · exact lined.uris p present
    · exact lined.uris q inside

/-- A phrase that gets a concept as its only one has had it as its only one. -/
theorem Heap.Paired.withConcepts_iff (paired : heap.Paired) (p : PhraseRef) (ctp : ConceptRef) :
    (heap.withConcepts p fun _ => [ctp]).Paired ↔ ∀ c, c ∈ (heap.phrase p).concepts ↔ c = ctp := by
  have means : ∀ c q, c ∈ ((heap.withConcepts p fun _ => [ctp]).phrase q).concepts ↔
      if q = p then c = ctp else c ∈ (heap.phrase q).concepts := by
    intro c q
    rw [Heap.phrase_withConcepts]
    split
    · exact List.mem_singleton
    · exact Iff.rfl
  constructor
  · intro paired' c
    have both := (means c p).symm.trans (paired' c p)
    rw [if_pos rfl] at both
    exact (paired c p).trans both.symm
  · intro only c q
    rw [means]
    split
    case isTrue same => exact (only c).symm.trans (same ▸ paired c p)
    case isFalse => exact paired c q

/-- What the creation of a concept for a phrase without concepts leaves. -/
def Heap.withOrphan (heap : Heap) (p : PhraseRef) (content : KnowledgeString) (uri : KnowledgeURI) :
    Heap :=
  ((heap.constructedWith {} (TypedKLine.add {} (heap.phrase p).uri p) content uri).withConcepts p
    (· ++ [heap.concepts.size])).withPhraseLine heap.phraseLines.size p

theorem keepsPairs_withOrphan (present : p < heap.phrases.size)
    (none : (heap.phrase p).concepts = []) (content : KnowledgeString) (uri : KnowledgeURI) :
    KeepsPairs heap (heap.withOrphan p content uri) := by
  let phrases := TypedKLine.add {} (heap.phrase p).uri p
  let made := heap.constructedWith {} phrases content uri
  let told := made.withConcepts p (· ++ [heap.concepts.size])
  have keys : ∀ u ∈ phrases.keys, u = (heap.phrase p).uri := fun u member =>
    List.mem_singleton.mp member
  have lined' : heap.Lined → told.Lined := by
    intro lined
    have below : ∀ u ∈ phrases.keys, u < heap.uris.size := fun u member =>
      keys u member ▸ lined.uris p present
    exact (lined.constructedWith {} phrases below content uri).withConcepts present _
  have new : (told.concept heap.concepts.size).phrases = some heap.phraseLines.size :=
    congrArg Concept.phrases (Heap.concept_constructed_self {} content uri)
  constructor
  case lined =>
    have present' : p < told.phrases.size := present.trans_le (Arena.size_le_size_modify ..)
    exact fun lined => (lined' lined).withPhraseLine present' _
  case size =>
    have size : told.concepts.size = heap.concepts.size + 1 := Arena.size_alloc ..
    exact size.ge.trans' (Nat.le_succ _)
  case paired =>
    intro lined paired c q
    have phrasesOf : ∀ c, told.phrasesOf c =
        if c = heap.concepts.size then phrases else heap.phrasesOf c :=
      Heap.phrasesOf_constructedWith lined {} phrases content uri
    have alone : ∀ q,
        ((told.phrase p).uri, q) ∈ (told.phrasesOf heap.concepts.size).frames.entries → q = p := by
      intro q entry
      rw [phrasesOf, if_pos rfl] at entry
      exact congrArg Prod.snd (List.mem_singleton.mp entry)
    have means : c ∈ ((heap.withOrphan p content uri).phrase q).concepts ↔
        (c = heap.concepts.size ∧ q = p) ∨ c ∈ (heap.phrase q).concepts := by
      change c ∈ (told.phrase q).concepts ↔ _
      rw [Heap.phrase_withConcepts]
      change c ∈ (if q = p then { heap.phrase p with
        concepts := (heap.phrase p).concepts ++ [heap.concepts.size] }
          else heap.phrase q).concepts ↔ _
      split
      case isTrue same =>
        subst same
        simp [none]
      case isFalse other => simp [other]
    rw [means, Heap.withOrphan, Heap.mem_phrasesOf_withPhraseLine (lined' lined) new alone,
      phrasesOf]
    split
    case isTrue same =>
      -- nothing has pointed at the new concept
      have nothing : ¬ c ∈ (heap.phrase q).concepts := by
        rw [paired c q, Heap.phrasesOf_of_size_le same.ge]
        exact List.not_mem_nil
      have values : q ∈ phrases.values ↔ q = p := List.mem_singleton
      rw [values, or_iff_left nothing]
      simp [same]
    case isFalse other => simp [other, paired c q]

open LinkParser in
theorem run_getConcept_withOrphan {textCase : TextCase} {contents : PhraseRef → PhraseContent}
    {name : String} {sentence : Sentence} {s : ParserState}
    (one : findPhrase textCase contents name sentence = [p])
    (none : (s.heap.phrase p).concepts = []) {conceptName : String}
    (named : Concept.prepareName textCase (contents p).text = some conceptName) :
    ∃ result t, (getConcept textCase contents name sentence).run s = .ok result t ∧
      t.heap = s.heap.withOrphan p { value := conceptName, name := conceptName }
        { name := conceptName, uid := s.uids 0 } := by
  simp only [getConcept, one, EStateM.run_bind, EStateM.run_get, none, createInstanceConcept,
    named]
  refine ⟨_, _, rfl, ?_⟩
  -- the second line of the new concept is the one after the first
  let created : Heap := { s.heap with
    uris := s.heap.uris.alloc { name := conceptName, uid := s.uids 0 }
    conceptLines := (s.heap.conceptLines.alloc {}).alloc {}
    phraseLines := s.heap.phraseLines.alloc (TypedKLine.add {} (s.heap.phrase p).uri p)
    concepts := s.heap.concepts.alloc
      { generalisations := some s.heap.conceptLines.size
        specialisations := some (s.heap.conceptLines.size + 1)
        phrases := some s.heap.phraseLines.size
        content := { value := conceptName, name := conceptName }
        uri := s.heap.uris.size } }
  have same : s.heap.constructedWith {} (TypedKLine.add {} (s.heap.phrase p).uri p)
      { value := conceptName, name := conceptName } { name := conceptName, uid := s.uids 0 } =
        created := by
    rw [Heap.constructedWith, Heap.constructed, Arena.size_alloc]
  let told := created.withConcepts p (· ++ [s.heap.concepts.size])
  have new : told.concept s.heap.concepts.size = _ := Arena.get_alloc_size ..
  have line : addToLine told s.heap.concepts.size p =
      told.phraseLines.modify s.heap.phraseLines.size (·.add (told.phrase p).uri p) := by
    rw [addToLine, new]
  rw [Heap.withOrphan, same]
  change { told with phraseLines := addToLine told s.heap.concepts.size p } = _
  rw [line]
  rfl

open LinkParser in
theorem keepsPairs_getConcept (textCase : TextCase) (contents : PhraseRef → PhraseContent)
    (name : String) {sentence : Sentence} {s : ParserState}
    (present : ∀ p ∈ sentence, p < s.heap.phrases.size) :
    KeepsPairs s.heap (finalState ((getConcept textCase contents name sentence).run s)).heap := by
  cases found : findPhrase textCase contents name sentence with
  | nil =>
    rw [run_getConcept_of_no_phrase found]
    exact refl _
  | cons p rest =>
    cases rest with
    | cons second rest =>
      rw [run_getConcept_of_phrases found]
      exact refl _
    | nil =>
      have inside : p ∈ sentence := by
        have member : p ∈ findPhrase textCase contents name sentence := found ▸ List.mem_cons_self
        exact List.mem_of_mem_filter member
      -- one phrase: only when it has no concept yet is one made for it
      cases known : (s.heap.phrase p).concepts with
      | nil =>
        cases named : Concept.prepareName textCase (contents p).text with
        | none =>
          rw [run_getConcept_of_unnamed found known named]
          exact refl _
        | some conceptName =>
          obtain ⟨result, t, run, heap⟩ := run_getConcept_withOrphan found known named
          rw [run, finalState_ok, heap]
          exact keepsPairs_withOrphan (present p inside) known _ _
      | cons concept others =>
        cases others with
        | nil =>
          rw [run_getConcept_of_concept found known]
          exact refl _
        | cons second others =>
          rw [run_getConcept_of_ambiguous found known]
          exact refl _

end Steps

/-! ### Runs of the pipeline -/

/-- Why a change of the object graph has failed, as the parser tells it. -/
def GraphFailure.asParseFailure : GraphFailure → ParseFailure
  | unexpectedException message => .unexpectedException message
  | nullPointer => .runtimeException "java.lang.NullPointerException"
  | stackOverflow => .runtimeException "java.lang.StackOverflowError"

/-- A program that changes the object graph only. -/
def onGraph {α : Type} (program : GraphProgram α) : ParserProgram Unit := fun s =>
  match program.run s.heap with
  | .ok _ heap => .ok () { s with heap }
  | .error e heap => .error e.asParseFailure { s with heap }

/-- A step of the annotation pipeline: the creation of a concept or of a phrase, the annotation
of a phrase, or the search for the concept of a name in a sentence. -/
inductive PipelineStep
  | concept (name : String)
  | createSubConcept (parent : ConceptRef) (name : String)
  | word (word : String)
  | wordAndConcept (word : String) (concept : ConceptRef)
  | wordAndConcepts (word : String) (concepts : List ConceptRef)
  | wordsAndConcept (words : List String) (concept : ConceptRef)
  | phrasesAndConcepts (words : List PhraseRef) (concepts : List ConceptRef)
  | annotatePhrase (setting : KBAnnotatorImpl.Setting) (ph : PhraseRef)
  | getConcept (name : String) (sentence : Sentence)

namespace PipelineStep

variable (textCase : TextCase)

/-- Perform a step for what it does to the state. -/
def perform : PipelineStep → ParserProgram Unit
  | concept name => onGraph (Concept.create name)
  | createSubConcept parent name => onGraph (Concept.createSubConcept parent name)
  | word w => onGraph (AnnotatedPhrase.ofWord w)
  | wordAndConcept w c => onGraph (AnnotatedPhrase.ofWordAndConcept w c)
  | wordAndConcepts w concepts => onGraph (AnnotatedPhrase.ofWordAndConcepts w concepts)
  | wordsAndConcept words c => onGraph (AnnotatedPhrase.ofWordsAndConcept words c)
  | phrasesAndConcepts words concepts =>
      onGraph (AnnotatedPhrase.ofPhrasesAndConcepts textCase words concepts)
  | annotatePhrase setting ph => onGraph (KBAnnotatorImpl.annotatePhrase setting ph)
  | getConcept name sentence => do
      let heap := (← get).heap
      discard (LinkParser.getConcept textCase heap.content name sentence)

/-- The objects that a step is given exist. -/
def Refers (s : ParserState) : PipelineStep → Prop
  | createSubConcept parent _ => parent < s.heap.concepts.size
  | wordAndConcept _ c => c < s.heap.concepts.size
  | wordAndConcepts _ concepts => ∀ c ∈ concepts, c < s.heap.concepts.size
  | wordsAndConcept _ c => c < s.heap.concepts.size
  | phrasesAndConcepts words concepts =>
      (∀ p ∈ words, p < s.heap.phrases.size) ∧ ∀ c ∈ concepts, c < s.heap.concepts.size
  | annotatePhrase _ ph => ph < s.heap.phrases.size
  | getConcept _ sentence => ∀ p ∈ sentence, p < s.heap.phrases.size
  | _ => True

/-- The step changes phrases and concepts alike: a factory that tells its concepts nothing is
given none, and the concept that a phrase is annotated with is its only one already. -/
def PointsBack (s : ParserState) : PipelineStep → Prop
  | phrasesAndConcepts _ concepts => concepts = []
  | annotatePhrase setting ph => ∀ ctp,
      KBAnnotatorImpl.annotationFound setting s.heap ph = .ok (some ctp) →
        ∀ c, c ∈ (s.heap.phrase ph).concepts ↔ c = ctp
  | _ => True

end PipelineStep

section Runs

variable {textCase : TextCase} {s : ParserState} {step : PipelineStep}

theorem heap_onGraph {α : Type} (program : GraphProgram α) (s : ParserState) :
    (finalState ((onGraph program).run s)).heap = finalState (program.run s.heap) := by
  change (finalState (match program.run s.heap with
    | .ok _ heap => EStateM.Result.ok () { s with heap }
    | .error e heap => .error e.asParseFailure { s with heap })).heap = _
  cases program.run s.heap <;> rfl

/-- A step that is neither of the two that write one side only keeps pairs. -/
theorem keepsPairs_perform (textCase : TextCase) (lined : s.heap.Lined) (refers : step.Refers s)
    (annotates : ∀ setting ph, step ≠ .annotatePhrase setting ph)
    (tells : ∀ words concepts, step ≠ .phrasesAndConcepts words concepts) :
    KeepsPairs s.heap (finalState ((step.perform textCase).run s)).heap := by
  cases step with
  | concept name =>
    rw [PipelineStep.perform, heap_onGraph]
    exact respects_create name _
  | createSubConcept parent name =>
    rw [PipelineStep.perform, heap_onGraph]
    exact respects_createSubConcept parent name _
  | word w =>
    rw [PipelineStep.perform, heap_onGraph]
    exact respects_ofWord w _
  | wordAndConcept w c =>
    rw [PipelineStep.perform, heap_onGraph]
    exact keepsPairs_ofWordAndConcept w lined refers
  | wordAndConcepts w concepts =>
    rw [PipelineStep.perform, heap_onGraph]
    exact keepsPairs_ofWordAndConcepts w lined refers
  | wordsAndConcept words c =>
    rw [PipelineStep.perform, heap_onGraph]
    exact keepsPairs_ofWordsAndConcept words lined refers
  | phrasesAndConcepts words concepts => exact absurd rfl (tells words concepts)
  | annotatePhrase setting ph => exact absurd rfl (annotates setting ph)
  | getConcept name sentence =>
    rw [PipelineStep.perform, EStateM.run_bind, EStateM.run_get]
    dsimp only
    rw [finalState_discard]
    exact keepsPairs_getConcept textCase s.heap.content name refers

theorem heap_annotatePhrase (setting : KBAnnotatorImpl.Setting) (ph : PhraseRef) :
    (finalState (((PipelineStep.annotatePhrase setting ph).perform textCase).run s)).heap =
      match KBAnnotatorImpl.annotationFound setting s.heap ph with
      | .ok (some ctp) => s.heap.withConcepts ph fun _ => [ctp]
      | _ => s.heap := by
  rw [PipelineStep.perform, heap_onGraph, KBAnnotatorImpl.run_annotatePhrase]
  cases KBAnnotatorImpl.annotationFound setting s.heap ph with
  | ok found => cases found <;> rfl
  | error e => rfl

theorem heap_phrasesAndConcepts (textCase : TextCase) (s : ParserState) (words : List PhraseRef)
    (concepts : List ConceptRef) :
    ∃ uri, (finalState (((PipelineStep.phrasesAndConcepts words concepts).perform textCase).run
      s)).heap = s.heap.withPhrase words concepts uri "" := by
  rw [PipelineStep.perform, heap_onGraph]
  exact ⟨_, rfl⟩

/-- Every step keeps lines apart. -/
theorem lined_perform (lined : s.heap.Lined) (refers : step.Refers s) :
    (finalState ((step.perform textCase).run s)).heap.Lined := by
  cases step with
  | annotatePhrase setting ph =>
    rw [heap_annotatePhrase]
    split
    · exact lined.withConcepts refers _
    · exact lined
  | phrasesAndConcepts words concepts =>
    obtain ⟨uri, heap⟩ := heap_phrasesAndConcepts textCase s words concepts
    rw [heap]
    exact lined.withPhrase uri ""
  | _ => exact (keepsPairs_perform textCase lined refers nofun nofun).lined lined

/-- A step after which phrases and concepts still point at each other. -/
theorem paired_perform_iff (lined : s.heap.Lined) (refers : step.Refers s)
    (paired : s.heap.Paired) :
    (finalState ((step.perform textCase).run s)).heap.Paired ↔ step.PointsBack s := by
  cases step with
  -- the two steps that write one side only come first, all others keep pairs
  | annotatePhrase setting ph =>
    rw [heap_annotatePhrase, PipelineStep.PointsBack]
    cases found : KBAnnotatorImpl.annotationFound setting s.heap ph with
    | ok outcome =>
      cases outcome with
      | some ctp =>
        dsimp only
        rw [paired.withConcepts_iff]
        constructor
        · intro only ctp' same
          cases same
          exact only
        · exact fun only => only ctp rfl
      | none => exact iff_of_true paired nofun
    | error e => exact iff_of_true paired nofun
  | phrasesAndConcepts words concepts =>
    obtain ⟨uri, heap⟩ := heap_phrasesAndConcepts textCase s words concepts
    rw [heap]
    exact paired.withPhrase_iff uri ""
  | _ =>
    have kept := keepsPairs_perform textCase lined refers nofun nofun
    exact iff_of_true (kept.paired lined paired) trivial

/-- Phrases and concepts point at each other all along a run exactly when each step changes
phrases and concepts alike. -/
theorem paired_throughout_iff (textCase : TextCase) (steps : List PipelineStep) (s : ParserState)
    (lined : s.heap.Lined) (paired : s.heap.Paired)
    (refers : AllAllowed (PipelineStep.perform textCase) PipelineStep.Refers steps s) :
    (∀ before after, steps = before ++ after →
        (runAll (PipelineStep.perform textCase) before s).heap.Paired) ↔
      AllAllowed (PipelineStep.perform textCase) PipelineStep.PointsBack steps s :=
  forall_runAll_iff (I := fun s => s.heap.Lined) (P := fun s => s.heap.Paired)
    (fun _ _ lined refers => lined_perform lined refers)
    (fun _ _ lined refers paired => paired_perform_iff lined refers paired) lined paired refers

/-! ### A browser that is annotated -/

theorem Heap.lined_empty : Heap.Lined {} where
  lines _ inside := absurd inside (Nat.not_lt_zero _)
  own _ _ _ has := nomatch has
  frames _ _ member := nomatch member
  uris _ inside := absurd inside (Nat.not_lt_zero _)

theorem Heap.paired_empty : Heap.Paired {} :=
  fun _ _ => iff_of_false List.not_mem_nil List.not_mem_nil

/-- An annotator that knows the given concepts, and no synonyms. -/
def knowing (dmModel : List ConceptRef) : KBAnnotatorImpl.Setting :=
  { textCase := .ascii, dmModel, annotators := [], stack := 2 }

/-- A concept and a phrase for it, which is annotated with the concept. -/
def browserAnnotated : List PipelineStep :=
  [.concept "browser", .wordAndConcept "browser" 0, .annotatePhrase (knowing [0]) 1]

theorem browserAnnotated_paired :
    AllAllowed (PipelineStep.perform .ascii) PipelineStep.Refers browserAnnotated {} ∧
    ∀ before after, browserAnnotated = before ++ after →
      (runAll (PipelineStep.perform .ascii) before {}).heap.Paired := by
  have allowed : AllAllowed (PipelineStep.perform .ascii) PipelineStep.Refers browserAnnotated {} :=
    ⟨trivial, Nat.one_pos, Nat.one_lt_two, trivial⟩
  refine ⟨allowed, (paired_throughout_iff .ascii browserAnnotated {} Heap.lined_empty
    Heap.paired_empty allowed).mpr ?_⟩
  refine ⟨trivial, trivial, fun ctp found c => ?_, trivial⟩
  let s := runAll (PipelineStep.perform .ascii) (browserAnnotated.take 2) {}
  have known : KBAnnotatorImpl.annotationFound (knowing [0]) s.heap 1 = .ok (some 0) := by
    decide +kernel
  have concepts : (s.heap.phrase 1).concepts = [0] := by decide +kernel
  change KBAnnotatorImpl.annotationFound (knowing [0]) s.heap 1 = _ at found
  change c ∈ (s.heap.phrase 1).concepts ↔ _
  rw [known] at found
  cases found
  rw [concepts, List.mem_singleton]

/-- A phrase made for a program, which is annotated with the browser of the domain model. -/
def programAnnotated : List PipelineStep :=
  [.concept "program", .concept "browser", .wordAndConcept "browser" 0,
    .annotatePhrase (knowing [1]) 1]

/-- The browser does not point at the phrase, and the program still does. -/
theorem programAnnotated_not_paired :
    AllAllowed (PipelineStep.perform .ascii) PipelineStep.Refers programAnnotated {} ∧
    let heap := (runAll (PipelineStep.perform .ascii) programAnnotated {}).heap
    1 ∈ (heap.phrase 1).concepts ∧ 1 ∉ (heap.phrasesOf 1).values ∧
      1 ∈ (heap.phrasesOf 0).values ∧ 0 ∉ (heap.phrase 1).concepts :=
  ⟨⟨trivial, trivial, Nat.two_pos, Nat.one_lt_two, trivial⟩, by decide +kernel⟩

end Runs

end ThinkingUnderstanding
