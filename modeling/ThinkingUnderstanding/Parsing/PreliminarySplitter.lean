import ThinkingUnderstanding.Parsing.FeatureNode
import ThinkingUnderstanding.Parsing.PhraseContent

/-!
# The splitter

`PreliminarySplitter` makes the phrases of a sentence out of the feature tree of its parse.
A node becomes a phrase of its own, and the phrases of the nodes it is related to are put
before it; but the relation `of` joins the node, the word and the first phrase of the other
node to one compound phrase. A node with an `of` and another relation is in the compound
and is a phrase of its own too.

## Main definitions

* `ParseFailure` — how the walk through a tree ends with an exception
* `PreliminarySplitter.getName`, `PreliminarySplitter.processNodeRec`

## Main results

* `PreliminarySplitter.processNodeRec_node_eq_ok_iff` — one step of the walk
-/

namespace ThinkingUnderstanding

/-- An exception raised in a walk: `UnexpectedException`, which the walk lets pass, or another
`RuntimeException`, which it turns into an `UnexpectedException`, or `URISyntaxException`, which is
not a `RuntimeException`. -/
inductive ParseFailure
  | unexpectedException (message : String)
  | runtimeException (message : String)
  | uriSyntaxException (input : String)
  deriving DecidableEq, Repr

namespace ParseFailure

/-- `case e: RuntimeException => throw new UnexpectedException(prefix + e.getMessage)`. -/
def rewrap (start : String) : ParseFailure → ParseFailure
  | runtimeException message => unexpectedException (start ++ message)
  | other => other

end ParseFailure

namespace PreliminarySplitter

/-- `PreliminarySplitter.getName`. -/
def getName (features : NodeFeatures) : Except ParseFailure String :=
  match features.name, features.origStr with
  | some name, _ => .ok name
  | none, some origStr => .ok origStr
  | none, none => .error (.unexpectedException "$No_name_specified")

/-- The phrase of a node alone: two underscored words are split. -/
def currentPhrase (name : String) (sentenceIndex : ℚ) : PhraseContent :=
  if '_' ∈ name.toList then
    .ofWords ((split name '_').map fun b => .ofWord b 0) sentenceIndex
  else .ofWord name sentenceIndex

/-- The loop of `processNodeRec` over the relations of a node, with the phrases so far and
whether a relation other than `of` has been met. -/
def processLinks (current : PhraseContent) (sentenceIndex : ℚ) :
    List (String × Except ParseFailure (List PhraseContent)) → List PhraseContent × Bool →
      Except ParseFailure (List PhraseContent × Bool)
  | [], found => .ok found
  | (f, process) :: rest, (phrases, notCompound) => do
      let childPhrases ← process
      if f ∈ relexFeaturesPhrases then
        let connectionPhrase := PhraseContent.ofWord f sentenceIndex
        match childPhrases with
        | first :: others =>
            let compoundPhrase :=
              PhraseContent.ofWords [current, connectionPhrase, first] sentenceIndex
            processLinks current sentenceIndex rest
              (compoundPhrase :: others ++ phrases, notCompound)
        | [] =>
            let compoundPhrase := PhraseContent.ofWords [current, connectionPhrase] sentenceIndex
            processLinks current sentenceIndex rest (compoundPhrase :: phrases, notCompound)
      else processLinks current sentenceIndex rest (childPhrases ++ phrases, true)

/-- The phrases of a node and of its relations, in `processNodeRec`. -/
def linkedPhrases (current : PhraseContent) (sentenceIndex : ℚ)
    (links : List (String × Except ParseFailure (List PhraseContent))) :
    Except ParseFailure (List PhraseContent) := do
  if (filteredFeatures links).length > 0 then
    let found ← processLinks current sentenceIndex (filteredFeatures links) ([], false)
    return if found.2 then current :: found.1 else found.1
  else return [current]

/-- What `processNodeRec` does at a node, in terms of its recursive calls. -/
def processNode (features : NodeFeatures)
    (links : List (String × Except ParseFailure (List PhraseContent)))
    (next : Option (Except ParseFailure (List PhraseContent))) :
    Except ParseFailure (List PhraseContent) :=
  Except.mapError (ParseFailure.rewrap "$Wrong_feature_requested ") do
    let name ← getName features
    let sentenceIndex ← features.sentenceIndex.mapError .runtimeException
    let phrases ← linkedPhrases (currentPhrase name sentenceIndex) sentenceIndex links
    let nextPhrases ← next.getD (.ok [])
    return nextPhrases ++ phrases

/-- `PreliminarySplitter.processNodeRec`. -/
def processNodeRec : FeatureNode → Except ParseFailure (List PhraseContent) :=
  FeatureNode.fold processNode

theorem bind_eq_ok_iff {ε α β : Type} {x : Except ε α} {f : α → Except ε β} {b : β} :
    (x >>= f) = .ok b ↔ ∃ a, x = .ok a ∧ f a = .ok b := by
  cases x with
  | error e =>
    constructor
    · exact fun run => nomatch run
    · rintro ⟨a, run, -⟩
      cases run
  | ok a =>
    constructor
    · exact fun run => ⟨a, rfl, run⟩
    · rintro ⟨_, first, run⟩
      cases first
      exact run

theorem mapError_eq_ok_iff {ε ε' α : Type} {f : ε → ε'} {x : Except ε α} {a : α} :
    x.mapError f = .ok a ↔ x = .ok a := by
  cases x <;> simp [Except.mapError]

/-- The walk ends normally at a node exactly when the node has a name and an index and the
walk ends normally below it. -/
theorem processNodeRec_node_eq_ok_iff {features : NodeFeatures}
    {links : List (String × FeatureNode)} {next : Option FeatureNode}
    {phrases : List PhraseContent} :
    processNodeRec (.node features links next) = .ok phrases ↔
      ∃ name sentenceIndex own after, getName features = .ok name ∧
        features.sentenceIndex = .ok sentenceIndex ∧
        linkedPhrases (currentPhrase name sentenceIndex) sentenceIndex
          (links.map fun link => (link.1, processNodeRec link.2)) = .ok own ∧
        next.elim (.ok []) processNodeRec = .ok after ∧ after ++ own = phrases := by
  have nextPhrases : (next.map processNodeRec).getD (.ok []) =
      next.elim (.ok []) processNodeRec := by cases next <;> rfl
  rw [processNodeRec, FeatureNode.fold_node, ← processNodeRec, processNode, mapError_eq_ok_iff,
    nextPhrases]
  simp only [bind_eq_ok_iff, mapError_eq_ok_iff]
  constructor
  · rintro ⟨name, named, index, indexed, own, linked, after, continued, same⟩
    exact ⟨name, index, own, after, named, indexed, linked, continued, Except.ok.inj same⟩
  · rintro ⟨name, index, own, after, named, indexed, linked, continued, same⟩
    exact ⟨name, named, index, indexed, own, linked, after, continued, congrArg _ same⟩

end PreliminarySplitter

end ThinkingUnderstanding
