import ThinkingUnderstanding.Persistence.KB
import ThinkingUnderstanding.Semantics.StateProgram
import ThinkingUnderstanding.Correlation.DomainConcepts

/-!
# The state of a process and the identifiers of resources

A process holds the objects, the connection to the knowledge base, and `KBMap`, the table of
the objects it has read from or written to a node. The uid of a URI object is an instance
number before its resource is saved, and the number of the node afterwards.

What the code relies on of its platform, and what it leaves unspecified, is a parameter:
which texts `java.net.URI` accepts, in which order the database enumerates relationships and a hash map
its keys, and what random names are drawn.

## Main definitions

* `World` — the state of a process
* `Platform` — the parameters
* `KnowledgeURI.format`, `uriText` — the text of a URI
* `KBMap.register`, `KBMap.get`, `KBMap.loadFromCache`

## Main results

* `parseLong_repr` — the number of a node is read back from a uid
-/

namespace ThinkingUnderstanding

open Semantics

/-- Why a method of the persistence layer ends with an exception. -/
inductive KBFailure
  | uriSyntaxException (input : String)
  | numberFormatException (input : String)
  | notFoundException (id : Option ℕ)
  | exception (message : String)
  | unexpectedException (message : String)
  | stringIndexOutOfBoundsException
  | classCastException
  | nullPointerException
  | stackOverflowError
  deriving DecidableEq, Repr

/-- The state of a process. -/
structure World where
  heap : Heap
  kb : KB
  /-- `KBMap.id2object`. -/
  id2object : ℕ → Option ResourceRef
  /-- The list buffer that is passed along by the `save` that is running. -/
  saved : List String := []

/-- A method of the persistence layer. -/
abbrev KBProgram (α : Type) := EStateM KBFailure World α

/-- What is left open by the platform. -/
structure Platform where
  /-- The texts that `java.net.URI` accepts. -/
  acceptsURI : String → Bool
  /-- The order in which the relationships of a node are enumerated. -/
  order : List Relationship → List Relationship
  order_perm : ∀ rels, (order rels).Perm rels
  /-- The order in which the keys of a hash map are enumerated. -/
  keyOrder : List String → List String
  keyOrder_perm : ∀ keys, (keyOrder keys).Perm keys
  /-- The identity of the text read as the namespace of a node. -/
  namespaceObject : ℕ → ℕ
  /-- The random name given to a node without a name. -/
  randomName : ℕ → String

/-- A platform on which every text is accepted and nothing is reordered. -/
def Platform.plain : Platform where
  acceptsURI _ := true
  order rels := rels
  order_perm rels := .refl rels
  keyOrder keys := keys
  keyOrder_perm keys := .refl keys
  namespaceObject id := id + 1
  randomName id := toString id

/-- `String.replace(target, replacement)`, for single characters. -/
def replaceChar (text : String) (target replacement : Char) : String :=
  String.ofList (text.toList.map fun ch => if ch = target then replacement else ch)

/-- The text that `KnowledgeURI.uri` makes of the fields. -/
def KnowledgeURI.format (uri : KnowledgeURI) : String :=
  uri.namespace_.text ++ "/" ++ replaceChar uri.name ' ' '-' ++ "@" ++ uri.revision ++ "#" ++
    uri.uid

/-- The text that `KnowledgeURI.uri` returns when it is next asked. -/
def KnowledgeURI.text (uri : KnowledgeURI) : String := uri.cached.getD uri.format

/-- `java.lang.Long.parseLong`, on texts without a sign. -/
def parseLong (text : String) : Option ℕ :=
  if text.toList ≠ [] ∧ text.toList.all Char.isDigit then
    some (Nat.ofDigitChars 10 text.toList 0)
  else none

@[simp] theorem parseLong_repr (n : ℕ) : parseLong (toString n) = some n := by
  change parseLong n.repr = some n
  have digits : (Nat.toDigits 10 n).all Char.isDigit = true :=
    List.all_eq_true.mpr fun _ member =>
      Nat.isDigit_of_mem_toDigits (by decide) (by decide) member
  rw [parseLong, Nat.toList_repr, if_pos ⟨Nat.toDigits_ne_nil, digits⟩,
    Nat.ofDigitChars_ten_toDigits]

theorem toString_nat_injective : Function.Injective (toString : ℕ → String) := by
  intro n m same
  have parsed := congrArg parseLong same
  rw [parseLong_repr, parseLong_repr] at parsed
  exact Option.some.inj parsed

theorem toString_nat_ne_empty (n : ℕ) : toString n ≠ "" := by
  intro none
  have parsed := parseLong_repr n
  rw [none] at parsed
  exact nomatch parsed

namespace Heap

variable (heap : Heap)

/-- `Resource.uri`, as the identity of the URI object. -/
def uriRef : ResourceRef → UriRef
  | .concept c => (heap.concept c).uri
  | .phrase p => (heap.phrase p).uri
  | .link l => (heap.link l).uri
  | .network n => (heap.network n).uri

/-- `Resource.uri.uid`. -/
def uid (r : ResourceRef) : String := (heap.uri (heap.uriRef r)).uid

/-- Assign to a URI object. -/
def modifyURI (u : UriRef) (f : KnowledgeURI → KnowledgeURI) : Heap :=
  { heap with uris := heap.uris.modify u f }

end Heap

variable (platform : Platform)

/-- `KnowledgeURI.uri().get.toString`: the text is made when it is first asked for. -/
def uriText (u : UriRef) : KBProgram String := do
  let uri := (← get).heap.uri u
  match uri.cached with
  | some text => return text
  | none =>
      if platform.acceptsURI uri.format then
        modify fun s => { s with
          heap := s.heap.modifyURI u fun uri => { uri with cached := some uri.format } }
        return uri.format
      else throw (.uriSyntaxException uri.format)

/-- `KBMap.register`. -/
def KBMap.register (r : ResourceRef) (id : ℕ) : KBProgram Unit :=
  modify fun s => { s with
    heap := s.heap.modifyURI (s.heap.uriRef r) fun uri => { uri with uid := toString id }
    id2object := Function.update s.id2object id (some r) }

/-- `KBMap.get`: nothing for `Constant.NO_KB_NODE`. -/
def KBMap.get (r : ResourceRef) : KBProgram (Option ℕ) := do
  let uid := (← MonadState.get).heap.uid r
  if uid = "" then return none
  match parseLong uid with
  | some id => return some id
  | none => throw (.numberFormatException uid)

end ThinkingUnderstanding
