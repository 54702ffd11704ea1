import ThinkingUnderstanding.Persistence.SavePlan

/-!
# The text of a concept

`Concept.toString` and `Concept.toStringComplete` print a concept with the texts of the URIs
that its lines of knowledge are keyed by, and of the URIs of its links. A text that
`java.net.URI` refuses is the end, whatever is done with the text of the concept.

The text of a URI is kept once it is made, so that it is the same whenever it is asked for, and
a text of a concept is known before it is made: what matters is which URIs are asked for.

The keys of a line stand in the order in which its map is enumerated, and a line that is `null`
counts as one without entries. How a `URISyntaxException` is given among the failures of a
program, and how a `Double` is printed, is left open.

## Main definitions

* `uriToString`, `TypedKLine.toString`, `ConceptLink.toString` — the texts of the parts
* `Concept.toString`, `Concept.toStringComplete` — the texts of a concept
* `Heap.TextsKept` — some texts have been made
* `Asks` — a program that asks for the texts of given URIs, and has a given value

## Main results

* `Asks.bind`, `Asks.get_bind`, `Asks.mapM` — how the requests of programs compose
* `asks_toString`, `asks_toStringComplete` — the requests of the texts of a concept
-/

namespace ThinkingUnderstanding

open Math Semantics

/-- A platform like the plain one, on which a text with a `%` is refused. It stands for an
escape that is not complete. -/
def Platform.withoutEscapes : Platform where
  __ := Platform.plain
  acceptsURI text := !text.toList.contains '%'

/-! ## The texts -/

section Texts

variable {ε : Type} (platform : Platform) (printDouble : ℚ → String) (refused : String → ε)

/-- `KnowledgeURI.toString`. -/
def uriToString (u : UriRef) : EStateM ε Heap String := do
  let uri := (← get).uri u
  match uri.cached with
  | some text => return text
  | none =>
      if platform.acceptsURI uri.format then
        modify fun heap => heap.modifyURI u fun uri => { uri with cached := some uri.format }
        return uri.format
      else throw (refused uri.format)

/-- `mkString("(", ",", ")")`. -/
def inParentheses (texts : List String) : String := "(" ++ ",".intercalate texts ++ ")"

/-- `TypedKLine.toString`. -/
def TypedKLine.toString {τ : Type} (line : TypedKLine τ) : EStateM ε Heap String := do
  let texts ← line.keys.mapM (uriToString platform refused)
  return inParentheses texts

/-- `Probability.toString`. -/
def Probability.toString (probability : Probability) : String :=
  printDouble probability.frequency ++ ":" ++ printDouble probability.confidence

/-- `Resource.toString` of a link. -/
def ConceptLink.toString (l : LinkRef) : EStateM ε Heap String := do
  let link := (← get).link l
  let uri ← uriToString platform refused link.uri
  return uri ++ ":" ++ link.probability.toString printDouble

/-- `Concept.toString`. -/
def Concept.toString (c : ConceptRef) : EStateM ε Heap String := do
  let heap ← get
  let phrases ← (heap.phrasesOf c).toString platform refused
  return (heap.uriOf c).name ++ "[phrase=" ++ phrases ++ "]"

/-- `Concept.toStringComplete`. -/
def Concept.toStringComplete (c : ConceptRef) : EStateM ε Heap String := do
  let heap ← get
  let generalisations ← (heap.generalisations c).toString platform refused
  let specialisations ← (heap.specialisations c).toString platform refused
  let links ← (heap.concept c).conceptLinks.mapM (ConceptLink.toString platform printDouble refused)
  let phrases ← (heap.phrasesOf c).toString platform refused
  return (heap.uriOf c).name ++ "[generalisations=" ++ generalisations ++
    ";specialisations=" ++ specialisations ++ ";links=" ++ ",".intercalate links ++
    ";phrase=" ++ phrases ++ "]"

end Texts

/-! ## What is asked for, and what is printed -/

namespace Heap

variable (heap : Heap) (printDouble : ℚ → String)

/-- The text of a line of knowledge. -/
def lineText {τ : Type} (line : TypedKLine τ) : String :=
  inParentheses (line.keys.map fun u => (heap.uri u).text)

/-- The text of a link. -/
def linkText (l : LinkRef) : String :=
  (heap.uri (heap.link l).uri).text ++ ":" ++ (heap.link l).probability.toString printDouble

/-- What `Concept.toString` returns. -/
def conceptText (c : ConceptRef) : String :=
  (heap.uriOf c).name ++ "[phrase=" ++ heap.lineText (heap.phrasesOf c) ++ "]"

/-- What `Concept.toStringComplete` returns. -/
def completeText (c : ConceptRef) : String :=
  (heap.uriOf c).name ++ "[generalisations=" ++ heap.lineText (heap.generalisations c) ++
    ";specialisations=" ++ heap.lineText (heap.specialisations c) ++
    ";links=" ++ ",".intercalate ((heap.concept c).conceptLinks.map (heap.linkText printDouble)) ++
    ";phrase=" ++ heap.lineText (heap.phrasesOf c) ++ "]"

/-- The URIs that `Concept.toString` asks for. -/
def phraseURIs (c : ConceptRef) : List UriRef := (heap.phrasesOf c).keys

/-- The URIs that `Concept.toStringComplete` asks for. -/
def completeURIs (c : ConceptRef) : List UriRef :=
  (heap.generalisations c).keys ++ ((heap.specialisations c).keys ++
    ((heap.concept c).conceptLinks.map (fun l => (heap.link l).uri) ++ heap.phraseURIs c))

end Heap

/-- The URI is as before, or its text has been made, which is accepted. -/
def KnowledgeURI.TextKept (platform : Platform) (uri uri' : KnowledgeURI) : Prop :=
  uri' = uri ∨ uri.Accepted platform ∧ uri' = { uri with cached := some uri.text }

namespace KnowledgeURI.TextKept

variable {platform : Platform} {uri uri' uri'' : KnowledgeURI} (kept : uri.TextKept platform uri')

include kept

/-- A text is the same before and after it is made. -/
theorem text_eq : uri'.text = uri.text := by
  rcases kept with rfl | ⟨-, rfl⟩ <;> rfl

theorem name_eq : uri'.name = uri.name := by
  rcases kept with rfl | ⟨-, rfl⟩ <;> rfl

theorem accepted_iff : uri'.Accepted platform ↔ uri.Accepted platform := by
  rcases kept with rfl | ⟨accepted, rfl⟩
  · rfl
  · exact iff_of_true (fun none => nomatch none) accepted

theorem trans (next : uri'.TextKept platform uri'') : uri.TextKept platform uri'' := by
  rcases next with rfl | ⟨accepted, rfl⟩
  · exact kept
  · refine Or.inr ⟨kept.accepted_iff.mp accepted, ?_⟩
    rw [kept.text_eq]
    rcases kept with rfl | ⟨-, rfl⟩ <;> rfl

end KnowledgeURI.TextKept

namespace Heap

variable (heap : Heap)

/-- The heaps differ at most in the texts that have been made, of URIs that are accepted. -/
structure TextsKept (platform : Platform) (heap heap' : Heap) : Prop where
  objects : heap' = { heap with uris := heap'.uris }
  uris : ∀ u, (heap.uri u).TextKept platform (heap'.uri u)
  size : heap.uris.size ≤ heap'.uris.size

namespace TextsKept

variable {heap} {platform : Platform} {t t' : Heap} (kept : heap.TextsKept platform t)

theorem refl (heap : Heap) : heap.TextsKept platform heap := ⟨rfl, fun _ => Or.inl rfl, le_rfl⟩

include kept

theorem concept_eq (c : ConceptRef) : t.concept c = heap.concept c := by
  rw [kept.objects]
  rfl

theorem link_eq (l : LinkRef) : t.link l = heap.link l := by
  rw [kept.objects]
  rfl

theorem generalisations_eq (c : ConceptRef) : t.generalisations c = heap.generalisations c := by
  rw [kept.objects]
  rfl

theorem generalisationsList_eq (c : ConceptRef) :
    t.generalisationsList c = heap.generalisationsList c := by
  rw [generalisationsList, generalisationsList, kept.generalisations_eq]

theorem specialisations_eq (c : ConceptRef) : t.specialisations c = heap.specialisations c := by
  rw [kept.objects]
  rfl

theorem phrasesOf_eq (c : ConceptRef) : t.phrasesOf c = heap.phrasesOf c := by
  rw [kept.objects]
  rfl

theorem nameOf_eq (c : ConceptRef) : (t.uriOf c).name = (heap.uriOf c).name := by
  rw [uriOf, uriOf, kept.concept_eq, (kept.uris _).name_eq]

theorem trans (next : t.TextsKept platform t') : heap.TextsKept platform t' where
  objects := by rw [next.objects, kept.objects]
  uris u := (kept.uris u).trans (next.uris u)
  size := kept.size.trans next.size

end TextsKept

/-- The text of an accepted URI is made. -/
theorem textsKept_modifyURI {heap : Heap} {platform : Platform} {u : UriRef}
    (accepted : (heap.uri u).Accepted platform) (none : (heap.uri u).cached = none) :
    heap.TextsKept platform
      (heap.modifyURI u fun uri => { uri with cached := some uri.format }) := by
  refine ⟨rfl, fun u' => ?_, Arena.size_le_size_modify ..⟩
  rw [uri_modifyURI]
  split_ifs with here
  · subst here
    refine Or.inr ⟨accepted, ?_⟩
    rw [KnowledgeURI.text, none, Option.getD_none]
  · exact Or.inl rfl

end Heap

section

variable {ε α β : Type} {platform : Platform} {printDouble : ℚ → String} {refused : String → ε}
  {heap : Heap} {us vs : List UriRef} {a : α} {b : β} {p : EStateM ε Heap α}

/-- Whatever texts have been made before, the program asks for those of the given URIs: it
returns the value when they are accepted, and throws when one is refused. -/
structure Asks (platform : Platform) (heap : Heap) (us : List UriRef) (value : α)
    (program : EStateM ε Heap α) : Prop where
  run_of_accepted : ∀ {t}, heap.TextsKept platform t →
    (∀ u ∈ us, (heap.uri u).Accepted platform) →
    ∃ t', program.run t = .ok value t' ∧ heap.TextsKept platform t'
  run_of_refused : ∀ {t}, heap.TextsKept platform t →
    (¬ ∀ u ∈ us, (heap.uri u).Accepted platform) →
    ∃ e t', program.run t = .error e t' ∧ heap.TextsKept platform t'

namespace Asks

/-- However the program ends, only texts have been made. -/
theorem textsKept (asks : Asks platform heap us a p) :
    heap.TextsKept platform (finalState (p.run heap)) := by
  by_cases accepted : ∀ u ∈ us, (heap.uri u).Accepted platform
  · obtain ⟨t, run, kept⟩ := asks.run_of_accepted (.refl heap) accepted
    rwa [run]
  · obtain ⟨e, t, run, kept⟩ := asks.run_of_refused (.refl heap) accepted
    rwa [run]

theorem pure (value : α) : Asks (ε := ε) platform heap [] value (Pure.pure value) where
  run_of_accepted := fun {t} kept _ => ⟨t, rfl, kept⟩
  run_of_refused := fun _ refused => absurd (List.forall_mem_nil _) refused

theorem bind {f : α → EStateM ε Heap β} (first : Asks platform heap us a p)
    (second : Asks platform heap vs b (f a)) : Asks platform heap (us ++ vs) b (p >>= f) where
  run_of_accepted := by
    intro t kept accepted
    rw [List.forall_mem_append] at accepted
    obtain ⟨t', run, kept'⟩ := first.run_of_accepted kept accepted.1
    obtain ⟨t'', run', kept''⟩ := second.run_of_accepted kept' accepted.2
    exact ⟨t'', run_bind_eq_ok_iff.mpr ⟨a, t', run, run'⟩, kept''⟩
  run_of_refused := by
    intro t kept refused
    rw [List.forall_mem_append, not_and] at refused
    rw [EStateM.run_bind]
    by_cases accepted : ∀ u ∈ us, (heap.uri u).Accepted platform
    · obtain ⟨t', run, kept'⟩ := first.run_of_accepted kept accepted
      rw [run]
      exact second.run_of_refused kept' (refused accepted)
    · obtain ⟨e, t', run, kept'⟩ := first.run_of_refused kept accepted
      rw [run]
      exact ⟨e, t', rfl, kept'⟩

/-- The last step of a program asks for nothing. -/
theorem map {f : α → EStateM ε Heap β} (first : Asks platform heap us a p)
    (last : f a = Pure.pure b) : Asks platform heap us b (p >>= f) := by
  have both : Asks platform heap (us ++ []) b (p >>= f) := first.bind (last ▸ pure b)
  rwa [List.append_nil] at both

/-- A program with two branches asks for what the one that is taken asks for. -/
theorem ite {c : Prop} [Decidable c] {a' : α} {p' : EStateM ε Heap α}
    (yes : Asks platform heap us a p) (no : Asks platform heap vs a' p') :
    Asks platform heap (if c then us else vs) (if c then a else a') (if c then p else p') := by
  split_ifs
  · exact yes
  · exact no

/-- A program that reads the heap sees the objects as they are. -/
theorem get_bind {f : Heap → EStateM ε Heap β}
    (rest : ∀ t, heap.TextsKept platform t → Asks platform heap us b (f t)) :
    Asks platform heap us b (get >>= f) where
  run_of_accepted := fun {t} kept accepted => (rest t kept).run_of_accepted kept accepted
  run_of_refused := fun {t} kept refused => (rest t kept).run_of_refused kept refused

theorem mapM {f : α → EStateM ε Heap β} {asked : α → List UriRef} {value : α → β} (xs : List α)
    (each : ∀ x ∈ xs, Asks platform heap (asked x) (value x) (f x)) :
    Asks platform heap (xs.flatMap asked) (xs.map value) (xs.mapM f) := by
  induction xs with
  | nil => exact pure []
  | cons x rest ih =>
    rw [List.forall_mem_cons] at each
    rw [List.mapM_cons, List.flatMap_cons, List.map_cons]
    exact each.1.bind ((ih each.2).map rfl)

end Asks

/-! ### The requests of the texts -/

theorem asks_uriToString (u : UriRef) :
    Asks platform heap [u] (heap.uri u).text (uriToString platform refused u) where
  run_of_accepted := by
    intro t kept accepted
    have here := (kept.uris u).accepted_iff.mpr (accepted u (List.mem_singleton_self u))
    rw [← (kept.uris u).text_eq]
    cases cached : (t.uri u).cached with
    | some text =>
      refine ⟨t, ?_, kept⟩
      simp only [uriToString, EStateM.run_bind, EStateM.run_get, cached, KnowledgeURI.text,
        Option.getD_some]
      rfl
    | none =>
      refine ⟨_, ?_, kept.trans (Heap.textsKept_modifyURI here cached)⟩
      simp only [uriToString, EStateM.run_bind, EStateM.run_get, cached, KnowledgeURI.text,
        Option.getD_none, if_pos (here cached)]
      rfl
  run_of_refused := by
    intro t kept refusal
    simp only [List.mem_singleton, forall_eq] at refusal
    rw [← (kept.uris u).accepted_iff, KnowledgeURI.Accepted, Classical.not_imp] at refusal
    refine ⟨refused (t.uri u).format, t, ?_, kept⟩
    simp only [uriToString, EStateM.run_bind, EStateM.run_get, refusal.1, if_neg refusal.2]
    rfl

theorem asks_lineToString {τ : Type} (line : TypedKLine τ) :
    Asks platform heap line.keys (heap.lineText line) (line.toString platform refused) := by
  have texts : Asks platform heap (line.keys.flatMap fun u => [u])
      (line.keys.map fun u => (heap.uri u).text) (line.keys.mapM (uriToString platform refused)) :=
    Asks.mapM line.keys fun u _ => asks_uriToString u
  rw [List.flatMap_singleton'] at texts
  exact texts.map rfl

theorem asks_linkToString (l : LinkRef) :
    Asks platform heap [(heap.link l).uri] (heap.linkText printDouble l)
      (ConceptLink.toString platform printDouble refused l) := by
  refine Asks.get_bind fun t kept => ?_
  dsimp only
  rw [kept.link_eq]
  exact (asks_uriToString _).map rfl

/-- `Concept.toString` asks for the keys of the phrases. -/
theorem asks_toString (c : ConceptRef) :
    Asks platform heap (heap.phraseURIs c) (heap.conceptText c)
      (Concept.toString platform refused c) := by
  refine Asks.get_bind fun t kept => ?_
  rw [kept.phrasesOf_eq, kept.nameOf_eq]
  exact (asks_lineToString _).map rfl

/-- `Concept.toStringComplete` asks for the keys of all lines and for the URIs of the links. -/
theorem asks_toStringComplete (c : ConceptRef) :
    Asks platform heap (heap.completeURIs c) (heap.completeText printDouble c)
      (Concept.toStringComplete platform printDouble refused c) := by
  refine Asks.get_bind fun t kept => ?_
  rw [kept.generalisations_eq, kept.specialisations_eq, kept.phrasesOf_eq, kept.concept_eq,
    kept.nameOf_eq]
  have links : Asks platform heap
      ((heap.concept c).conceptLinks.flatMap fun l => [(heap.link l).uri])
      ((heap.concept c).conceptLinks.map (heap.linkText printDouble))
      ((heap.concept c).conceptLinks.mapM (ConceptLink.toString platform printDouble refused)) :=
    Asks.mapM _ fun l _ => asks_linkToString l
  rw [← List.map_eq_flatMap] at links
  exact (asks_lineToString _).bind ((asks_lineToString _).bind (links.bind
    ((asks_lineToString _).map rfl)))

end

end ThinkingUnderstanding
