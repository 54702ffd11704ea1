import ThinkingUnderstanding.Relex.FeaturePaths

/-!
# Phrase structure in the graph

The parser writes the phrases of a sentence as nested lists, such as `(S (NP I) (VP am here))`.
The markup reads this text and puts the phrases into the feature graph: the elements of a phrase
are a chain of `phr-next` features, and the first node of a phrase is found under `phr-head`. For
the words it takes the nodes of the sentence, one after another, and not the words of the text.
From the graph the text is written again.

## Main definitions

* `PhraseMarkup.doMarkup` — reading
* `PhraseTree.toString` — writing
-/

namespace ThinkingUnderstanding

open Math Semantics

namespace PhraseMarkup

open FeatureNode

/-! ### Searching a text -/

/-- The loop of `closer`, at `idx`, with the parentheses that are open. -/
def closerFrom (cnt : ℤ) (idx : ℕ) : List Char → ℕ
  | [] => idx
  | c :: rest =>
      let cnt := if c = '(' then cnt + 1 else if c = ')' then cnt - 1 else cnt
      if cnt = 0 then idx else closerFrom cnt (idx + 1) rest

/-- `PhraseMarkup.closer`. -/
def closer (str : List Char) (idx : ℕ) : ℕ := closerFrom 0 idx (str.drop idx)

/-- `String.indexOf(c, idx)`, where nothing is found at -1. -/
def indexOf (str : List Char) (c : Char) (idx : ℕ) : Option ℕ :=
  ((str.drop idx).idxOf? c).map fun i => idx + i

/-- `PhraseMarkup.strpbrk`. -/
def strpbrk (str : List Char) (idx : ℕ) (accept : List Char) : ℕ :=
  accept.foldl (fun we c =>
    match indexOf str c idx with
    | none => we
    | some wh => if 0 < wh ∧ wh < we then wh else we) str.length

/-- `PhraseMarkup.strspn`. -/
def strspn (str : List Char) (idx : ℕ) (accept : List Char) : ℕ :=
  match (str.drop idx).findIdx? fun ch => ch ∉ accept with
  | none => str.length
  | some j => idx + j

/-- The white space between the elements. -/
def blanks : List Char := [' ', '\t', '\r', '\n']

/-! ### Reading -/

/-- The root is set, unless it is null. -/
def setRoot (head : ℕ) : Option ℕ → FeatureProgram Unit
  | none => return ()
  | some root => setFeature head "phr-root" (some root)

mutual

/-- `PhraseMarkup.doMarkup`, with the depth that the stack has. `word_index` is a field of the
object, and here it is returned. -/
def doMarkup (words : List ℕ) : ℕ → ℕ → Option ℕ → List Char → ℕ → FeatureProgram ℕ
  | 0, _, _, _, _ => throw .stackOverflow
  | depth + 1, top, root, str, word_index =>
      match str.head? with
      | none => throw .indexOutOfBounds
      | some c =>
          if c ≠ '(' then return word_index
          else do
            let head ← add top "phr-head"
            setRoot head root
            let idx := strpbrk str 0 [' ', '\t', '\r', '\n']
            let phrase_type := String.ofList ((str.take idx).drop 1)
            let type ← newValue phrase_type
            setFeature head "phr-type" (some type)
            markupElements words depth top head head str (idx + 1) word_index

/-- The loop of `doMarkup`, at `idx`, where `fn` is the last node of the chain. -/
def markupElements (words : List ℕ) :
    ℕ → ℕ → ℕ → ℕ → List Char → ℕ → ℕ → FeatureProgram ℕ
  | 0, _, _, _, _, _, _ => throw .stackOverflow
  | depth + 1, top, head, fn, str, idx, word_index =>
      match str[idx]? with
      | none => return word_index
      | some c =>
          if c = '(' then do
            let lidx := closer str idx + 1
            if str.length < lidx then
              throw (.runtime ("Malformed phrase structure string: " ++ String.ofList str))
            else
              let subphrase := (str.take lidx).drop idx
              let fn ← add fn "phr-next"
              let word_index ← doMarkup words depth fn (some top) subphrase word_index
              let idx := strspn str (idx + (subphrase.length + 1)) [' ', '\r', '\n', '\t']
              markupElements words depth top head fn str idx word_index
          else
            match words[word_index]? with
            | none => throw .indexOutOfBounds
            | some wn => do
                let we := strpbrk str idx [' ', '\r', '\n', '\t', ')']
                let fn ← add fn "phr-next"
                setFeature fn "phr-word" (some wn)
                setFeature wn "phr-head" (some head)
                let word_index := word_index + 1
                let wh := strpbrk str idx [')']
                if we = wh then return word_index
                else
                  let idx := strspn str we [' ', '\r', '\n', '\t']
                  markupElements words depth top head fn str idx word_index

end

/-- `PhraseMarkup.markup`, without the leaders of the phrases. -/
def markup (words : List ℕ) (left : ℕ) (phraseString : List Char) : FeatureProgram ℕ :=
  doMarkup words (2 * phraseString.length + 2) left none phraseString 1

end PhraseMarkup

namespace PhraseTree

open FeatureNode

/-- A text in a concatenation. -/
def written (text : Option String) : String := text.getD "null"

/-- A word must not have parentheses. -/
def braced (word : String) : String :=
  String.ofList (word.toList.map fun c => if c = '(' then '{' else if c = ')' then '}' else c)

/-- A type in the chain is written. -/
def typeToString (fn : ℕ) (str : String) : FeatureProgram String := do
  match ← getFeature fn "phr-type" with
  | none => return str
  | some fn_type => return str ++ " " ++ written (← getValue fn_type)

/-- A word in the chain is written, unless it has been united with another one. -/
def wordToString (fn : ℕ) (str : String) : FeatureProgram String := do
  match ← getFeature fn "phr-word" with
  | none => return str
  | some fn_word =>
      match ← getFeature fn_word "orig_str" with
      | none => return str
      | some orig_str =>
          match ← getValue orig_str with
          | none => throw .nullPointer
          | some word => return str ++ " " ++ braced word

mutual

/-- `PhraseTree._toString`, with the depth that the stack has. -/
def _toString : ℕ → ℕ → String → FeatureProgram String
  | 0, _, _ => throw .stackOverflow
  | depth + 1, fn, str => do
      match ← getFeature fn "phr-type" with
      | none => throw .nullPointer
      | some fn_type =>
          let str := str ++ "(" ++ written (← getValue fn_type)
          let fn ← getFeature fn "phr-next"
          let str ← elementsToString depth fn str
          return str ++ ")"

/-- The loop of `_toString`. -/
def elementsToString : ℕ → Option ℕ → String → FeatureProgram String
  | _, none, str => return str
  | 0, some _, _ => throw .stackOverflow
  | depth + 1, some fn, str => do
      let str ← typeToString fn str
      let str ← wordToString fn str
      let head ← getFeature fn "phr-head"
      let str ← head.elim (pure str) fun head => _toString depth head (str ++ " ")
      let next ← getFeature fn "phr-next"
      elementsToString depth next str

end

/-- `PhraseTree.toString(head)`. -/
def toString (depth head : ℕ) : FeatureProgram (Option String) := do
  match ← getFeature head "phr-head" with
  | some fn => return some (← _toString depth fn "")
  | none =>
      match ← getFeature head "phr-type" with
      | some fn => getValue fn
      | none =>
          match ← getFeature head "phr-word" with
          | none => return some ""
          | some fn =>
              match ← getFeature fn "orig_str" with
              | none => return some ""
              | some fn => getValue fn

/-- `new PhraseTree(fn).toString()`. -/
def ofNode (depth fn : ℕ) : FeatureProgram (Option String) := do
  match ← getFeature fn "phr-head" with
  | some _ => toString depth fn
  | none =>
      match ← getFeature fn "phr-root" with
      | none => return some ""
      | some phr =>
          -- the cursor is found, too
          discard (getFeature phr "phr-head")
          toString depth phr

end PhraseTree

end ThinkingUnderstanding
