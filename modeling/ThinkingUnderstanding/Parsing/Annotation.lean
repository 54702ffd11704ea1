import ThinkingUnderstanding.Parsing.LocalSearch

/-!
# Which phrases are annotated

The annotator looks a phrase up by its text, and then by its synonyms in their order. Where
this succeeds, the phrase gets the concept as its only one and the phrases it consists of are
left alone; elsewhere these are looked up. A lookup reads texts, and not the concepts
of phrases, so that it finds the same before and after phrases have been annotated.

In trees without shared phrases the annotated ones are therefore those that are found, with no
phrase above them that is.

## Main definitions

* `Heap.annotate` — the object graph after some phrases have been annotated
* `KBAnnotatorImpl.IsTopmost` — the phrases that should be annotated, with their concept

## Main results

* `run_forM_recurrentlyCheckPhrase` — what the walk through phrases does
* `annotates_topmost` — the annotator annotates the topmost phrases that are found
-/

namespace ThinkingUnderstanding

open Math Semantics Relation

namespace Heap

/-- The phrases that a phrase consists of. -/
def partsOf (heap : Heap) (p : PhraseRef) : List PhraseRef := (heap.phrase p).phrases

/-- A phrase is assigned concepts. -/
def assignConcepts (heap : Heap) (p : PhraseRef) (concepts : List ConceptRef) : Heap :=
  { heap with phrases := heap.phrases.modify p fun phrase => { phrase with concepts } }

/-- Each of the phrases is assigned the concept it comes with. -/
def annotate (heap : Heap) (hits : List (PhraseRef × ConceptRef)) : Heap :=
  hits.foldl (fun heap hit => heap.assignConcepts hit.1 [hit.2]) heap

/-- The heaps differ in the concepts of phrases only. -/
structure SameTexts (heap heap' : Heap) : Prop where
  others : ∃ phrases, heap' = { heap with phrases }
  size : heap'.phrases.size = heap.phrases.size
  phrase : ∀ p, ∃ concepts, heap'.phrase p = { heap.phrase p with concepts }

variable {heap heap' heap'' : Heap}

theorem SameTexts.refl (heap : Heap) : heap.SameTexts heap where
  others := ⟨heap.phrases, rfl⟩
  size := rfl
  phrase p := ⟨(heap.phrase p).concepts, rfl⟩

theorem SameTexts.trans (first : heap.SameTexts heap') (second : heap'.SameTexts heap'') :
    heap.SameTexts heap'' where
  others := by
    obtain ⟨phrases, rfl⟩ := first.others
    obtain ⟨phrases', rfl⟩ := second.others
    exact ⟨phrases', rfl⟩
  size := second.size.trans first.size
  phrase p := by
    obtain ⟨concepts, same⟩ := first.phrase p
    obtain ⟨concepts', same'⟩ := second.phrase p
    exact ⟨concepts', by rw [same', same]⟩

theorem SameTexts.partsOf (same : heap.SameTexts heap') (p : PhraseRef) :
    heap'.partsOf p = heap.partsOf p := by
  obtain ⟨concepts, value⟩ := same.phrase p
  rw [Heap.partsOf, Heap.partsOf, value]

/-- Where only concepts of phrases differ, phrases have the same texts. -/
theorem SameTexts.content (same : heap.SameTexts heap') (p : PhraseRef) :
    heap'.content p = heap.content p := by
  have contentTo : ∀ depth p, heap'.contentTo depth p = heap.contentTo depth p := by
    intro depth
    induction depth with
    | zero =>
      intro p
      obtain ⟨concepts, value⟩ := same.phrase p
      rw [Heap.contentTo, Heap.contentTo, value]
    | succ depth ih =>
      intro p
      obtain ⟨concepts, value⟩ := same.phrase p
      rw [Heap.contentTo, Heap.contentTo, value, funext ih]
  rw [Heap.content, Heap.content, same.size, contentTo]

theorem phrase_assignConcepts (p q : PhraseRef) (concepts : List ConceptRef) :
    (heap.assignConcepts p concepts).phrase q =
      if q = p then { heap.phrase p with concepts } else heap.phrase q :=
  heap.phrases.get_modify p q fun phrase => { phrase with concepts }

/-- Concepts are assigned to a phrase of the heap. -/
theorem sameTexts_assignConcepts {p : PhraseRef} (present : p < heap.phrases.size)
    (concepts : List ConceptRef) : heap.SameTexts (heap.assignConcepts p concepts) where
  others := ⟨_, rfl⟩
  size := Nat.max_eq_left present
  phrase q := by
    rw [phrase_assignConcepts]
    split
    case isTrue same => exact ⟨concepts, by rw [same]⟩
    case isFalse => exact ⟨(heap.phrase q).concepts, rfl⟩

theorem annotate_append (heap : Heap) (hits hits' : List (PhraseRef × ConceptRef)) :
    heap.annotate (hits ++ hits') = (heap.annotate hits).annotate hits' := List.foldl_append

theorem sameTexts_annotate (hits : List (PhraseRef × ConceptRef)) :
    ∀ heap : Heap, (∀ hit ∈ hits, hit.1 < heap.phrases.size) →
      heap.SameTexts (heap.annotate hits) := by
  induction hits with
  | nil => exact fun heap _ => .refl heap
  | cons hit rest ih =>
    intro heap present
    rw [List.forall_mem_cons] at present
    have first := sameTexts_assignConcepts present.1 [hit.2]
    exact first.trans (ih _ fun hit member => (present.2 hit member).trans_eq first.size.symm)

/-- The phrases after an annotation in which each phrase comes with one concept. -/
theorem phrase_annotate {hits : List (PhraseRef × ConceptRef)}
    {lookup : PhraseRef → Option ConceptRef} (found : ∀ hit ∈ hits, lookup hit.1 = some hit.2)
    (heap : Heap) (p : PhraseRef) : (heap.annotate hits).phrase p =
      if ∃ hit ∈ hits, hit.1 = p then { heap.phrase p with concepts := (lookup p).toList }
      else heap.phrase p := by
  induction hits using List.reverseRecOn with
  | nil => simp [annotate]
  | append_singleton hits hit ih =>
    rw [List.forall_mem_append] at found
    have last : lookup hit.1 = some hit.2 := found.2 hit (List.mem_singleton_self hit)
    have step : heap.annotate (hits ++ [hit]) = (heap.annotate hits).assignConcepts hit.1 [hit.2] :=
      annotate_append heap hits [hit]
    rw [step, phrase_assignConcepts]
    by_cases here : p = hit.1
    · subst here
      have inside : ∃ h ∈ hits ++ [hit], h.1 = hit.1 := ⟨hit, by simp, rfl⟩
      rw [if_pos rfl, if_pos inside, ih found.1, last]
      split <;> rfl
    · have same : (∃ h ∈ hits ++ [hit], h.1 = p) ↔ ∃ h ∈ hits, h.1 = p := by
        simp [or_and_right, exists_or, eq_comm, here]
      rw [if_neg here, ih found.1]
      simp only [same]

end Heap

namespace KBAnnotatorImpl

/-- The texts by which a phrase is looked up: its own, and its synonyms, one annotator after
another. -/
def lookupTexts (setting : Setting) (heap : Heap) (ph : PhraseRef) : List String :=
  let phrase := (heap.content ph).phrase setting.textCase
  phrase :: setting.annotators.flatMap fun a => a phrase

/-- The phrases of trees, in preorder. No phrase is in two places. -/
structure IsForest (heap : Heap) (roots phrases : List PhraseRef) : Prop where
  preorder : Preorder heap.partsOf roots phrases
  nodup : phrases.Nodup
  present : ∀ p ∈ phrases, p < heap.phrases.size

/-- The lookup finds the concept for the phrase, and nothing for a phrase above it. -/
structure IsTopmost (heap : Heap) (phrases : List PhraseRef)
    (lookup : PhraseRef → Option ConceptRef) (p : PhraseRef) (ctp : ConceptRef) : Prop where
  mem : p ∈ phrases
  found : lookup p = some ctp
  above : ∀ q ∈ phrases, TransGen (fun a b => b ∈ heap.partsOf a) q p → lookup q = none

/-- The topmost phrases that are found have been given their concept as the only one, and nothing
else has changed. -/
structure AnnotatesTopmost (phrases : List PhraseRef) (lookup : PhraseRef → Option ConceptRef)
    (heap heap' : Heap) : Prop where
  others : ∃ arena, heap' = { heap with phrases := arena }
  annotated : ∀ p ctp, IsTopmost heap phrases lookup p ctp →
    heap'.phrase p = { heap.phrase p with concepts := [ctp] }
  unchanged : ∀ p, (∀ ctp, ¬ IsTopmost heap phrases lookup p ctp) → heap'.phrase p = heap.phrase p

variable {setting : Setting} {heap heap' : Heap} {lookup : PhraseRef → Option ConceptRef}

theorem annotationFound_eq (ph : PhraseRef) : annotationFound setting heap ph =
    firstFound (checkLocalKB setting heap) (lookupTexts setting heap ph) := by
  rw [annotationFound, lookupTexts, firstFound]
  cases checkLocalKB setting heap ((heap.content ph).phrase setting.textCase) with
  | ok found => cases found <;> rfl
  | error e => rfl

/-- A lookup finds the same after phrases have been annotated. -/
theorem annotationFound_of_sameTexts (same : heap.SameTexts heap') (ph : PhraseRef) :
    annotationFound setting heap' ph = annotationFound setting heap ph := by
  have content := funext same.content
  obtain ⟨phrases, rfl⟩ := same.others
  have meant : isMeant setting { heap with phrases } = isMeant setting heap := by
    funext phrase n
    rw [isMeant, isMeant, content]
    rfl
  have searched : checkList setting { heap with phrases } = checkList setting heap := by
    funext phrase depth
    induction depth with
    | zero => rfl
    | succ depth ih =>
      funext lst
      rw [checkList, checkList, meant, ih]
      rfl
  have local_ : checkLocalKB setting { heap with phrases } = checkLocalKB setting heap := by
    funext phrase
    rw [checkLocalKB, checkLocalKB, searched]
  rw [annotationFound_eq, annotationFound_eq, lookupTexts, lookupTexts, content, local_]

theorem exists_eq_add_one_of_not_hasWalk {next : PhraseRef → List PhraseRef} {depth : ℕ}
    {p : PhraseRef} (deep : ¬ HasWalk next depth p) : ∃ d, depth = d + 1 := by
  cases depth with
  | zero => exact absurd trivial deep
  | succ d => exact ⟨d, rfl⟩

/-- The walk through phrases on a stack that is deep enough: the topmost phrases that are found
are annotated. -/
theorem run_forM_recurrentlyCheckPhrase {ps : List PhraseRef}
    {hits : List (PhraseRef × ConceptRef)} (topmost : TopmostHits heap.partsOf lookup ps hits)
    (looksUp : ∀ r ∈ ps, ∀ p, Leads heap.partsOf r p →
      annotationFound setting heap p = .ok (lookup p))
    (present : ∀ r ∈ ps, ∀ p, Leads heap.partsOf r p → p < heap.phrases.size)
    {depth : ℕ} (deep : ∀ r ∈ ps, ¬ HasWalk heap.partsOf depth r) {h : Heap}
    (same : heap.SameTexts h) :
    (forM ps (recurrentlyCheckPhrase setting depth)).run h = .ok () (h.annotate hits) := by
  -- on the walk; the heap has changed in concepts of phrases only, which no lookup reads
  induction topmost generalizing depth h with
  | nil => rfl
  | @hit p ctp ps hits found _ ih =>
    rw [List.forall_mem_cons] at looksUp present deep
    obtain ⟨d, rfl⟩ := exists_eq_add_one_of_not_hasWalk deep.1
    have first : (recurrentlyCheckPhrase setting (d + 1) p).run h =
        .ok () (h.assignConcepts p [ctp]) := by
      rw [recurrentlyCheckPhrase, EStateM.run_bind, run_annotatePhrase,
        annotationFound_of_sameTexts same, looksUp.1 p .refl, found]
      rfl
    have inside : p < h.phrases.size := (present.1 p .refl).trans_eq same.size.symm
    rw [List.forM_cons, EStateM.run_bind, first]
    exact ih looksUp.2 present.2 deep.2 (same.trans (Heap.sameTexts_assignConcepts inside [ctp]))
  | @miss p ps below hits notFound topmostBelow _ ihBelow ihRest =>
    rw [List.forall_mem_cons] at looksUp present deep
    obtain ⟨d, rfl⟩ := exists_eq_add_one_of_not_hasWalk deep.1
    -- what a part leads to is below the phrase too
    have inner : ∀ q ∈ heap.partsOf p, ∀ q', Leads heap.partsOf q q' → Leads heap.partsOf p q' :=
      fun q part q' path => leads_iff.mpr (Or.inr ⟨q, part, path⟩)
    have first : (recurrentlyCheckPhrase setting (d + 1) p).run h = .ok () (h.annotate below) := by
      rw [recurrentlyCheckPhrase, EStateM.run_bind, run_annotatePhrase,
        annotationFound_of_sameTexts same, looksUp.1 p .refl, notFound]
      change (forM (h.partsOf p) (recurrentlyCheckPhrase setting d)).run h = _
      rw [same.partsOf]
      exact ihBelow (fun q part q' path => looksUp.1 q' (inner q part q' path))
        (fun q part q' path => present.1 q' (inner q part q' path))
        (fun q part walk => deep.1 ⟨q, part, walk⟩) same
    have inside : ∀ hit ∈ below, hit.1 < h.phrases.size := by
      intro hit member
      obtain ⟨q, part, path⟩ := topmostBelow.leads hit member
      exact (present.1 _ (inner q part _ path)).trans_eq same.size.symm
    rw [List.forM_cons, EStateM.run_bind, first, Heap.annotate_append]
    exact ihRest looksUp.2 present.2 deep.2 (same.trans (Heap.sameTexts_annotate below h inside))

/-- The sentences are gone through one after another. -/
theorem apply_eq (setting : Setting) (extractedSentences : List Sentence) :
    apply setting extractedSentences =
      forM extractedSentences.flatten (recurrentlyCheckPhrase setting setting.stack) := by
  induction extractedSentences with
  | nil => rfl
  | cons sentence rest ih =>
    rw [apply, List.forM_cons, List.flatten_cons, List.forM_append]
    exact congrArg _ (funext fun _ => ih)

/-- In trees without shared phrases, on a stack that is deep enough, and with lookups that return,
the annotator annotates the topmost phrases that are found. -/
theorem annotates_topmost (heap : Heap) (extractedSentences : List Sentence)
    (phrases : List PhraseRef) (forest : IsForest heap extractedSentences.flatten phrases) :
    ∃ enough, ∀ setting : Setting, enough ≤ setting.stack →
      ∀ lookup : PhraseRef → Option ConceptRef,
      (∀ p ∈ phrases, firstFound (checkLocalKB setting heap) (lookupTexts setting heap p) =
        .ok (lookup p)) →
      ∃ heap', (apply setting extractedSentences).run heap = .ok () heap' ∧
        AnnotatesTopmost phrases lookup heap heap' := by
  -- a forest has no infinite walks, so some depth is not reached from any of its roots
  obtain ⟨enough, short⟩ := exists_forall_not_hasWalk_iff_acc.mpr forest.preorder.acc
  refine ⟨enough, fun setting deep lookup looksUp => ?_⟩
  obtain ⟨hits, topmost⟩ := forest.preorder.exists_topmostHits lookup
  have reached : ∀ r ∈ extractedSentences.flatten, ∀ p, Leads heap.partsOf r p → p ∈ phrases :=
    fun r root p path => forest.preorder.mem_iff.mpr ⟨r, root, path⟩
  -- what the walk hits are the topmost phrases that are found
  have hit_iff : ∀ p ctp, (p, ctp) ∈ hits ↔ IsTopmost heap phrases lookup p ctp := by
    intro p ctp
    rw [topmost.mem_iff forest.preorder forest.nodup]
    exact ⟨fun ⟨mem, found, above⟩ => ⟨mem, found, above⟩,
      fun topmost => ⟨topmost.mem, topmost.found, topmost.above⟩⟩
  have inside : ∀ hit ∈ hits, hit.1 < heap.phrases.size :=
    fun hit member => forest.present _ ((hit_iff hit.1 hit.2).mp member).mem
  refine ⟨heap.annotate hits, ?_, (heap.sameTexts_annotate hits inside).others, ?_, ?_⟩
  · rw [apply_eq]
    refine run_forM_recurrentlyCheckPhrase topmost (fun r root p path => ?_)
      (fun r root p path => forest.present p (reached r root p path))
      (fun r root walk => short r root (walk.of_le deep)) (.refl heap)
    rw [annotationFound_eq, looksUp p (reached r root p path)]
  · intro p ctp isTopmost
    rw [Heap.phrase_annotate topmost.found, if_pos ⟨_, (hit_iff p ctp).mpr isTopmost, rfl⟩,
      isTopmost.found]
    rfl
  · intro p none
    rw [Heap.phrase_annotate topmost.found, if_neg]
    rintro ⟨⟨q, ctp⟩, member, rfl⟩
    exact none ctp ((hit_iff q ctp).mp member)

/-- A phrase of two words. -/
def installFirefox : Heap where
  phrases := .ofList [{ phrases := [1, 2] }, { text := "install" }, { text := "firefox" }]

theorem isForest_installFirefox : IsForest installFirefox [0] [0, 1, 2] where
  preorder := by
    have parts : installFirefox.partsOf 0 = [1, 2] := by decide +kernel
    have word : ∀ p ∈ [1, 2], Preorder installFirefox.partsOf (installFirefox.partsOf p) [] := by
      intro p member
      have none : ∀ p ∈ [1, 2], installFirefox.partsOf p = [] := by decide +kernel
      rw [none p member]
      exact .nil
    have second : Preorder installFirefox.partsOf [2] ([2] ++ []) := .cons (word 2 (by decide)) .nil
    have words : Preorder installFirefox.partsOf [1, 2] ([1] ++ [2]) :=
      .cons (word 1 (by decide)) second
    rw [← parts] at words
    exact (Preorder.cons words .nil : Preorder _ [0] (0 :: ([1, 2] ++ [])))
  nodup := by decide
  present := by decide +kernel

theorem annotates_installFirefox : ∃ enough, ∀ setting : Setting, enough ≤ setting.stack →
    ∀ lookup : PhraseRef → Option ConceptRef,
      (∀ p ∈ [0, 1, 2], firstFound (checkLocalKB setting installFirefox)
        (lookupTexts setting installFirefox p) = .ok (lookup p)) →
      ∃ heap', (apply setting [[0]]).run installFirefox = .ok () heap' ∧
        AnnotatesTopmost [0, 1, 2] lookup installFirefox heap' :=
  annotates_topmost installFirefox [[0]] [0, 1, 2] isForest_installFirefox

end KBAnnotatorImpl

end ThinkingUnderstanding
