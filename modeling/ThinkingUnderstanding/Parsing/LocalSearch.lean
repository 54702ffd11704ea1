import ThinkingUnderstanding.Math.Acyclic
import ThinkingUnderstanding.Math.Preorder
import ThinkingUnderstanding.Parsing.Annotator

/-!
# The search for a concept of a phrase

`checkLocalKB` goes through the nodes of the domain model and, below each, through its
specialisations. On specialisations without cycles it ends, and it has then gone through all
that specialises a node, in depth-first preorder, up to the first concept that matches: it
has a phrase or a content that is the text, but for the case of the letters.

## Main definitions

* `Heap.AcyclicBelow` — no cycle of specialisations is reached from the nodes
* `KBAnnotatorImpl.Matches` — the concept is meant by a text
* `KBAnnotatorImpl.FindsFirst` — the contract of the search

## Main results

* `checkList_eq` — the search through a list, on a stack that is deep enough
* `checkLocalKB_findsFirst` — the search finds the first match in preorder
-/

namespace ThinkingUnderstanding

open Math Relation

namespace Heap

variable (heap : Heap)

/-- The direct specialisations of a concept. -/
def specialisationsList (c : ConceptRef) : List ConceptRef := (heap.specialisations c).values

/-- No concept that is reached from the nodes through specialisations specialises itself. -/
def AcyclicBelow (nodes : List ConceptRef) : Prop :=
  ∀ n ∈ nodes, ∀ c, Leads heap.specialisationsList n c →
    ¬ TransGen (fun a b => b ∈ heap.specialisationsList a) c c

variable {heap}

/-- Only objects that exist have specialisations. -/
theorem specialisationsList_of_size_le {c : ConceptRef} (beyond : heap.concepts.size ≤ c) :
    heap.specialisationsList c = [] := by
  rw [specialisationsList, specialisations, concept_of_size_le beyond]
  rfl

theorem AcyclicBelow.acc {nodes : List ConceptRef} (acyclic : heap.AcyclicBelow nodes) :
    ∀ n ∈ nodes, Acc (fun b a => b ∈ heap.specialisationsList a) n := fun n member =>
  acc_of_acyclic_nat (fun _ => specialisationsList_of_size_le) (acyclic n member)

end Heap

namespace KBAnnotatorImpl

/-- A phrase of the concept is the text, but for case and surrounding blanks, or its content is,
but for case. -/
def Matches (textCase : TextCase) (heap : Heap) (phrase : String) (c : ConceptRef) : Prop :=
  let lower := textCase.toLowerCase
  (∃ p ∈ (heap.phrasesOf c).values,
    trim (lower ((heap.content p).phrase textCase)) = trim (lower phrase)) ∨
  lower (heap.concept c).content.value = lower phrase

instance (textCase : TextCase) (heap : Heap) (phrase : String) :
    DecidablePred (Matches textCase heap phrase) := fun _ =>
  inferInstanceAs (Decidable (_ ∨ _))

/-- What the search returns is the first match in depth-first preorder, and it returns nothing
exactly when nothing matches that is reached from a node. -/
structure FindsFirst (setting : Setting) (heap : Heap) (phrase : String)
    (found : Option ConceptRef) : Prop where
  first : ∃ preorder, Preorder heap.specialisationsList setting.dmModel preorder ∧
    found = preorder.find? fun c => Matches setting.textCase heap phrase c
  none_iff : found = none ↔ ∀ n ∈ setting.dmModel, ∀ c, Leads heap.specialisationsList n c →
    ¬ Matches setting.textCase heap phrase c

variable {setting : Setting} {heap : Heap} {phrase : String}

/-- A concept whose phrases have been assigned is tested for a match. -/
theorem isMeant_eq {n : ConceptRef} (phrased : (heap.concept n).phrases ≠ none) :
    isMeant setting heap phrase n = .ok (Matches setting.textCase heap phrase n) := by
  obtain ⟨line, assigned⟩ := Option.ne_none_iff_exists'.mp phrased
  rw [isMeant, assigned]
  refine congrArg Except.ok ?_
  rw [Bool.eq_iff_iff, Bool.or_eq_true, decide_eq_true_iff, decide_eq_true_iff, gt_iff_lt,
    List.count_pos_iff, List.mem_map, decide_eq_true_iff]
  rfl

/-- The search below a concept: it is left out where there is nothing, and elsewhere there is
stack left. -/
theorem checkSpecialisations_eq {a : ConceptRef} {below : List ConceptRef} {depth : ℕ}
    (preorder : Preorder heap.specialisationsList (heap.specialisationsList a) below)
    (searched : ∀ {depth}, (∀ n ∈ heap.specialisationsList a,
      ¬ HasWalk heap.specialisationsList (depth + 1) n) →
        checkList setting heap phrase (depth + 1) (heap.specialisationsList a) =
          .ok (below.find? fun c => Matches setting.textCase heap phrase c))
    (deep : ¬ HasWalk heap.specialisationsList (depth + 1) a) :
    (if (heap.specialisations a).size > 0 then
        checkList setting heap phrase depth (heap.specialisations a).values
      else return none) =
        Except.ok (below.find? fun c => Matches setting.textCase heap phrase c) := by
  rw [TypedKLine.size, InsertionMap.size_eq_length_values]
  split
  case isTrue some =>
    obtain ⟨s, member⟩ := List.exists_mem_of_length_pos some
    -- there is a specialisation, so the stack has a frame left for it
    cases depth with
    | zero => exact absurd ⟨s, member, trivial⟩ deep
    | succ depth => exact searched fun n below walk => deep ⟨n, below, walk⟩
  case isFalse none =>
    have nothing : heap.specialisationsList a = [] :=
      List.eq_nil_of_length_eq_zero (Nat.eq_zero_of_not_pos none)
    rw [nothing] at preorder
    cases preorder
    rfl

/-- The search through a list, on a stack that is deeper than the specialisations. -/
theorem checkList_eq {lst cs : List ConceptRef}
    (preorder : Preorder heap.specialisationsList lst cs)
    (phrased : ∀ c ∈ cs, (heap.concept c).phrases ≠ none) {depth : ℕ}
    (deep : ∀ n ∈ lst, ¬ HasWalk heap.specialisationsList (depth + 1) n) :
    checkList setting heap phrase (depth + 1) lst =
      .ok (cs.find? fun c => Matches setting.textCase heap phrase c) := by
  induction preorder generalizing depth with
  | nil => rfl
  | @cons a as below rest preorder _ ihBelow ihRest =>
    rw [List.forall_mem_cons] at phrased deep
    obtain ⟨inside, after⟩ := List.forall_mem_append.mp phrased.2
    have later := ihRest after deep.2
    rw [checkList] at later ⊢
    -- the concept is tested, and then its specialisations are searched
    have checked : (do
        if ← isMeant setting heap phrase a then return some a
        else if (heap.specialisations a).size > 0 then
          checkList setting heap phrase depth (heap.specialisations a).values
        else return none) = Except.ok
          ((a :: below).find? fun c => Matches setting.textCase heap phrase c) := by
      rw [isMeant_eq phrased.1, List.find?_cons]
      by_cases found : Matches setting.textCase heap phrase a
      · rw [decide_eq_true found]
        rfl
      · rw [decide_eq_false found]
        refine Eq.trans ?_ (checkSpecialisations_eq preorder (ihBelow inside) deep.1)
        rfl
    rw [firstFound, checked, ← List.cons_append, List.find?_append]
    cases (a :: below).find? fun c => Matches setting.textCase heap phrase c with
    | some c => rfl
    | none => exact later

/-- In a domain model without cycles of specialisations, all of whose concepts have phrases
assigned, the search finds the first match. -/
theorem checkLocalKB_findsFirst (setting : Setting) (heap : Heap)
    (acyclic : heap.AcyclicBelow setting.dmModel)
    (phrased : ∀ n ∈ setting.dmModel, ∀ c, Leads heap.specialisationsList n c →
      (heap.concept c).phrases ≠ none) :
    ∃ enough, ∀ stack ≥ enough, ∀ phrase, ∃ found,
      checkLocalKB { setting with stack } heap phrase = .ok found ∧
        FindsFirst setting heap phrase found := by
  obtain ⟨preorder, order⟩ := exists_preorder acyclic.acc
  obtain ⟨enough, short⟩ := exists_forall_not_hasWalk_iff_acc.mpr acyclic.acc
  refine ⟨enough + 1, fun stack deep phrase => ⟨_, ?_, ⟨preorder, order, rfl⟩, ?_⟩⟩
  · obtain ⟨depth, rfl⟩ := Nat.exists_eq_add_one.mpr (Nat.zero_lt_of_lt deep)
    refine checkList_eq order (fun c member => ?_) fun n member walk => ?_
    · obtain ⟨n, node, leads⟩ := order.mem_iff.mp member
      exact phrased n node c leads
    · exact short n member (walk.of_le (Nat.le_of_succ_le deep))
  · simp only [List.find?_eq_none, decide_eq_true_iff, order.mem_iff]
    exact ⟨fun none n node c leads => none c ⟨n, node, leads⟩,
      fun none c ⟨n, node, leads⟩ => none n node c leads⟩

/-- A concept with a specialisation, which has a phrase. -/
def programs : Heap where
  concepts := .ofList [{ specialisations := some 0, phrases := some 0 }, { phrases := some 1 }]
  conceptLines := .ofList [({} : TypedKLine ConceptRef).add 0 1]
  phraseLines := .ofList [{}, ({} : TypedKLine PhraseRef).add 0 0]
  phrases := .ofList [{ text := "Firefox" }]

theorem specialisationsList_programs (c : ConceptRef) :
    programs.specialisationsList c = if c = 0 then [1] else [] := by
  by_cases inside : c < programs.concepts.size
  · revert c
    decide +kernel
  · have other : c ≠ 0 := fun same => inside (same ▸ by decide +kernel)
    rw [Heap.specialisationsList_of_size_le (not_lt.mp inside), if_neg other]

/-- The search in this model finds the first match. -/
theorem findsFirst_programs : ∃ enough, ∀ stack ≥ enough, ∀ phrase, ∃ found,
    checkLocalKB { textCase := .ascii, dmModel := [0], annotators := [], stack } programs phrase =
        .ok found ∧
      FindsFirst { textCase := .ascii, dmModel := [0], annotators := [], stack := 0 } programs
        phrase found := by
  -- the only edge leads from the first concept to the second one
  have step : ∀ a b, b ∈ programs.specialisationsList a → a = 0 ∧ b = 1 := by
    intro a b member
    rw [specialisationsList_programs] at member
    split_ifs at member with same
    · exact ⟨same, List.mem_singleton.mp member⟩
    · cases member
  refine checkLocalKB_findsFirst
    { textCase := .ascii, dmModel := [0], annotators := [], stack := 0 }
    programs (fun n _ c _ cycle => ?_) fun n member c leads => ?_
  · obtain ⟨b, first, -⟩ := TransGen.head'_iff.mp cycle
    obtain ⟨b', -, last⟩ := TransGen.tail'_iff.mp cycle
    exact absurd ((step _ _ first).1.symm.trans (step _ _ last).2) (by decide)
  · obtain rfl := List.mem_singleton.mp member
    rcases leads_iff.mp leads with rfl | ⟨b, edge, further⟩
    · decide +kernel
    · obtain ⟨-, rfl⟩ := step _ _ edge
      rcases leads_iff.mp further with rfl | ⟨b, edge', -⟩
      · decide +kernel
      · exact absurd (step _ _ edge').1 (by decide)

end KBAnnotatorImpl

end ThinkingUnderstanding
