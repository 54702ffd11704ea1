import ThinkingUnderstanding.Math.DepthFirst
import ThinkingUnderstanding.Persistence.KBMap

/-!
# Saving the object graph

A concept, a phrase or a network is saved by a recursion over what it refers to. Each
resource is stored as a new node below the node of the one it is reached from, unless the
list of uids that is passed along contains its uid: then only a relationship is
made. The list receives the uid a resource has before it is stored, if it has
one, and the one it has afterwards.

The result of the methods, `true` whenever they return, is left out.

## Main definitions

* `Heap.exported` — the properties a resource is stored with
* `Heap.children` — what a resource is saved with, in the order of the loops of the source
* `checkIfSaved`, `appendToSave` — the methods of `ModelHelper`
* `N4JKB.saveResource`, `N4JKB.createLink`
* `save` — the `save` methods, on a stack of the given depth

## Main results

* `run_save_of_saved` — a resource whose uid is in the list is linked to
* `run_save_of_unsaved` — any other one is stored, and its children are saved
-/

namespace ThinkingUnderstanding

open Math Semantics

/-- `Constant.DEFAULT_LINK_NAME`. -/
def defaultLinkName : String := "defaultLink"

/-- `Constant.SPECIALISATION_LINK_NAME`. -/
def specialisationLinkName : String := "specialisationLink"

/-- `Constant.PHRASES_LINK_NAME`. -/
def phrasesLinkName : String := "phrasesLink"

/-- `Constant.CONCEPT_LINK_NAME`. -/
def conceptLinkName : String := "conceptLink"

/-- `Constant.CONCEPT_LINK_SOURCE_NAME`. -/
def conceptLinkSourceName : String := "conceptLinkSrc"

/-- `Constant.CONCEPT_LINK_DESTINATION_NAME`. -/
def conceptLinkDestinationName : String := "conceptLinkDst"

/-- `Constant.NODES_LINK_NAME`. -/
def nodesLinkName : String := "nodesLink"

/-- `Constant.ROOT_NODES_LINK_NAME`. -/
def rootNodesLinkName : String := "rootNodesLink"

/-- `Constant.LINKS_LINK_NAME`. -/
def linksLinkName : String := "links"

/-- The key a resource is saved under: the text of its own URI, or the name of a link. -/
inductive LinkKey
  | resourceURI
  | linkName (text : String)
  deriving DecidableEq, Repr

/-- A call of `save` in one of the loops of a `save`. -/
structure Child where
  resource : ResourceRef
  linkType : String
  key : LinkKey
  deriving DecidableEq, Repr

namespace Heap

variable (heap : Heap)

/-- `Resource.export`: the properties of the URI and of the probability. -/
def exportedResource (uri : KnowledgeURI) (probability : Probability) : Properties where
  namespace_ := some uri.namespace_.text
  uriName := some uri.name
  revision := some uri.revision
  frequency := some probability.frequency
  confidence := some probability.confidence

/-- The `export` methods. -/
def exported : ResourceRef → Properties
  | .concept c =>
      { exportedResource (heap.uri (heap.concept c).uri) (heap.concept c).probability with
        content := some (heap.concept c).content.name }
  | .phrase p =>
      { exportedResource (heap.uri (heap.phrase p).uri) (heap.phrase p).probability with
        text := some (heap.phrase p).text
        index := some (heap.phrase p).index }
  | .link l => exportedResource (heap.uri (heap.link l).uri) (heap.link l).probability
  | .network n => exportedResource (heap.uri (heap.network n).uri) (heap.network n).probability

/-- `x.save(kb, this, x.uri.toString, linkType, saved)`. -/
def child (linkType : String) (x : ResourceRef) : Child := ⟨x, linkType, .resourceURI⟩

/-- The loops of `Concept.save`. -/
def conceptChildren (c : ConceptRef) : List Child :=
  (heap.generalisations c).values.map (child generalisationLinkName ∘ .concept) ++
  (heap.specialisations c).values.map (child specialisationLinkName ∘ .concept) ++
  (heap.phrasesOf c).values.map (child phrasesLinkName ∘ .phrase) ++
  (heap.linksOf c).flatMap fun t =>
    [⟨.concept t.source, conceptLinkSourceName, .linkName (heap.uri t.uri).name⟩,
      ⟨.concept t.destination, conceptLinkDestinationName, .linkName (heap.uri t.uri).name⟩]

/-- The loops of `AnnotatedPhrase.save`. -/
def phraseChildren (p : PhraseRef) : List Child :=
  (heap.phrase p).phrases.map (child phrasesLinkName ∘ .phrase) ++
  (heap.phrase p).concepts.map (child conceptLinkName ∘ .concept)

/-- The loops of `ConceptNetwork.save`. -/
def networkChildren (n : NetworkRef) : List Child :=
  (heap.network n).nodes.map (child nodesLinkName ∘ .concept) ++
  (heap.network n).nodes.map (child rootNodesLinkName ∘ .concept) ++
  (heap.network n).links.map (child linksLinkName ∘ .link)

/-- The loops of the `save` of a resource. -/
def children : ResourceRef → List Child
  | .concept c => heap.conceptChildren c
  | .phrase p => heap.phraseChildren p
  | .network n => heap.networkChildren n
  | .link _ => []

end Heap

/-- The node with a number, when there is one. -/
def KB.findNode (kb : KB) : Option ℕ → Option {id // kb.HasNode id}
  | some id => if present : kb.HasNode id then some ⟨id, present⟩ else none
  | none => none

/-- `N4JKB.createLink`. -/
def N4JKB.createLink (parent child : Option ℕ) (linkType key : String) : KBProgram Unit := do
  let s ← get
  match s.kb.findNode parent, s.kb.findNode child with
  | some parentNode, some childNode =>
      set { s with kb := s.kb.createRelationshipTo parentNode childNode linkType key }
  | none, _ => throw (.notFoundException parent)
  | _, none => throw (.notFoundException child)

/-- The knowledge base with a new node below the node `parent`. -/
def KB.addChild (kb : KB) (properties : Properties) (parent : Option ℕ)
    (linkType key : String) : KB :=
  (kb.createNode properties).createRelationshipTo
    ⟨kb.getNodeById parent, (kb.getNodeById parent).2.createNode properties⟩
    ⟨kb.upcoming 0, KB.hasNode_upcoming properties⟩ linkType key

theorem KB.relationships_addChild (kb : KB) (properties : Properties) (parent : Option ℕ)
    (linkType key : String) : (kb.addChild properties parent linkType key).relationships =
      kb.relationships ++ [⟨kb.getNodeById parent, kb.upcoming 0, linkType, key⟩] := rfl

/-- A node is added below the node that `getNodeById` finds. -/
theorem KB.addChild_getNodeById (kb : KB) (properties : Properties) (parent : Option ℕ)
    (linkType key : String) :
    kb.addChild properties (some (kb.getNodeById parent)) linkType key =
      kb.addChild properties parent linkType key := by
  unfold KB.addChild
  congr 2
  rw [KB.getNodeById_of_hasNode (kb.getNodeById parent).2]

/-- `N4JKB.saveResource`. -/
def N4JKB.saveResource (child : ResourceRef) (parent : Option ℕ) (key linkType : String) :
    KBProgram Unit := do
  let s ← get
  set { s with kb := s.kb.addChild (s.heap.exported child) parent linkType key }
  KBMap.register child (s.kb.upcoming 0)

/-- `ModelHelper.checkIfSaved`. -/
def checkIfSaved (parent : Option ℕ) (key linkType : String) (refObject : Option ℕ)
    (uid : String) : KBProgram Bool := do
  if uid = "" then return false
  if uid ∈ (← get).saved then
    N4JKB.createLink parent refObject linkType key
    return true
  modify fun s => { s with saved := s.saved ++ [uid] }
  return false

/-- `ModelHelper.appendToSave`. The uid, a text, is never equal to the number
`Constant.NO_KB_NODE`. -/
def appendToSave (r : ResourceRef) : KBProgram Unit := do
  let uid := (← get).heap.uid r
  if uid = "" then throw (.exception "Saved KB Node should have UID")
  modify fun s => { s with saved := s.saved ++ [uid] }

variable (platform : Platform)

/-- The key of a call, as its argument is evaluated. -/
def Child.keyText (child : Child) : KBProgram String := do
  match child.key with
  | .resourceURI => uriText platform ((← get).heap.uriRef child.resource)
  | .linkName text => return text

/-- A `save` method: resource, parent, key and type of the link. -/
abbrev Saver := ResourceRef → Option ℕ → String → String → KBProgram Unit

/-- A call of `save` in a loop, below a given parent. -/
def saveBelow (save : Saver) (parent : Option ℕ) (child : Child) : KBProgram Unit := do
  let key ← child.keyText platform
  save child.resource parent key child.linkType

/-- One turn of a loop. The node of the parent is asked for anew each time, since `this` is
converted implicitly. -/
def saveChild (save : Saver) (this : ResourceRef) (child : Child) : KBProgram Unit := do
  saveBelow platform save (← KBMap.get this) child

/-- What the `save` methods have in common. No `save` assigns what the loops run over, so
the children are read once. -/
def saveWithChildren (save : Saver) (children : Heap → List Child) (this : ResourceRef)
    (parent : Option ℕ) (key linkType : String) : KBProgram Unit := do
  let refObject ← KBMap.get this
  if ← checkIfSaved parent key linkType refObject ((← get).heap.uid this) then return
  N4JKB.saveResource this parent key linkType
  appendToSave this
  forM (children (← get).heap) (saveChild platform save this)

/-- `Concept.save`. -/
def Concept.save (save : Saver) (c : ConceptRef) :
    Option ℕ → String → String → KBProgram Unit :=
  saveWithChildren platform save (fun heap => heap.conceptChildren c) (.concept c)

/-- `AnnotatedPhrase.save`. -/
def AnnotatedPhrase.save (save : Saver) (p : PhraseRef) :
    Option ℕ → String → String → KBProgram Unit :=
  saveWithChildren platform save (fun heap => heap.phraseChildren p) (.phrase p)

/-- `ConceptNetwork.save`. -/
def ConceptNetwork.save (save : Saver) (n : NetworkRef) :
    Option ℕ → String → String → KBProgram Unit :=
  saveWithChildren platform save (fun heap => heap.networkChildren n) (.network n)

/-- `Resource.save`, which a link inherits. -/
def ConceptLink.save (l : LinkRef) (parent : Option ℕ) (key linkType : String) :
    KBProgram Unit :=
  N4JKB.saveResource (.link l) parent key linkType

/-- The `save` of a resource, on a stack of the given depth. -/
def save : ℕ → Saver
  | 0, _ => fun _ _ _ => throw .stackOverflowError
  | stack + 1, .concept c => Concept.save platform (save stack) c
  | stack + 1, .phrase p => AnnotatedPhrase.save platform (save stack) p
  | stack + 1, .network n => ConceptNetwork.save platform (save stack) n
  | _ + 1, .link l => ConceptLink.save l

/-- `save` with the default value of its last parameter, an empty list buffer. -/
def saveAnew (stack : ℕ) (r : ResourceRef) (parent : Option ℕ) (key linkType : String) :
    KBProgram Unit := do
  modify fun s => { s with saved := [] }
  save platform stack r parent key linkType

/-- A resource that is not a link is saved by the recursion. -/
def ResourceRef.Recursive : ResourceRef → Prop
  | .link _ => False
  | _ => True

variable {platform}

/-- Concepts and phrases are saved with concepts and phrases. -/
def ResourceRef.Plain : ResourceRef → Prop
  | .concept _ => True
  | .phrase _ => True
  | _ => False

theorem ResourceRef.Plain.of_mem_children {heap : Heap} {r : ResourceRef} (plain : r.Plain)
    {child : Child} (member : child ∈ heap.children r) : child.resource.Plain := by
  cases r with
  | concept c =>
    simp only [Heap.children, Heap.conceptChildren, List.mem_append, List.mem_map,
      List.mem_flatMap, List.mem_cons, List.not_mem_nil, or_false] at member
    rcases member with ((⟨x, -, rfl⟩ | ⟨x, -, rfl⟩) | ⟨x, -, rfl⟩) | ⟨l, -, rfl | rfl⟩
    all_goals exact trivial
  | phrase p =>
    simp only [Heap.children, Heap.phraseChildren, List.mem_append, List.mem_map] at member
    rcases member with ⟨x, -, rfl⟩ | ⟨x, -, rfl⟩
    all_goals exact trivial
  | network n => exact plain.elim
  | link l => exact plain.elim

theorem ResourceRef.Plain.recursive {r : ResourceRef} (plain : r.Plain) : r.Recursive := by
  cases r with
  | link l => exact plain.elim
  | _ => exact trivial

theorem save_succ_of_recursive (stack : ℕ) {r : ResourceRef} (recursive : r.Recursive) :
    save platform (stack + 1) r =
      saveWithChildren platform (save platform stack) (fun heap => heap.children r) r := by
  cases r with
  | concept c => rfl
  | phrase p => rfl
  | network n => rfl
  | link l => exact recursive.elim

/-- The texts that are uids: the empty one, and those of numbers. -/
def ValidUid (uid : String) : Prop := uid = "" ∨ ∃ n : ℕ, uid = toString n

theorem validUid_toString (n : ℕ) : ValidUid (toString n) := Or.inr ⟨n, rfl⟩

namespace KBMap

/-- The number that a uid stands for. -/
def number (uid : String) : Option ℕ := if uid = "" then none else parseLong uid

@[simp] theorem number_toString (n : ℕ) : number (toString n) = some n := by
  rw [number, if_neg (toString_nat_ne_empty n), parseLong_repr]

theorem run_get {r : ResourceRef} {s : World} (valid : ValidUid (s.heap.uid r)) :
    (get r).run s = .ok (number (s.heap.uid r)) s := by
  simp only [get, EStateM.run_bind, EStateM.run_get]
  rcases valid with none | ⟨n, same⟩
  · rw [if_pos none, none]
    rfl
  · rw [same, if_neg (toString_nat_ne_empty n), number_toString, parseLong_repr]
    rfl

end KBMap

namespace World

/-- The state after `r` has been stored below `parent`, its uids being noted. -/
def store (s : World) (r : ResourceRef) (parent : Option ℕ) (key linkType : String) : World where
  heap := s.heap.modifyURI (s.heap.uriRef r) fun uri =>
    { uri with uid := toString (s.kb.upcoming 0) }
  kb := s.kb.addChild (s.heap.exported r) parent linkType key
  id2object := Function.update s.id2object (s.kb.upcoming 0) (some r)
  saved := s.saved ++ (if s.heap.uid r = "" then [] else [s.heap.uid r]) ++
    [toString (s.kb.upcoming 0)]

end World

/-- The uid of a URI object that has just been assigned. -/
theorem Heap.uid_modifyURI_self (heap : Heap) (r : ResourceRef) (f : KnowledgeURI → KnowledgeURI) :
    (heap.modifyURI (heap.uriRef r) f).uid r = (f (heap.uri (heap.uriRef r))).uid := by
  have same : (heap.modifyURI (heap.uriRef r) f).uriRef r = heap.uriRef r := by cases r <;> rfl
  rw [Heap.uid, same]
  exact congrArg KnowledgeURI.uid (Arena.get_modify_self ..)

section Runs

variable {next : Saver} {loops : Heap → List Child} {r : ResourceRef} {parent : Option ℕ}
  {key linkType : String} {s : World}

/-- A resource whose uid is in the list is linked to. -/
theorem run_save_of_saved (valid : ValidUid (s.heap.uid r)) (named : s.heap.uid r ≠ "")
    (known : s.heap.uid r ∈ s.saved) :
    (saveWithChildren platform next loops r parent key linkType).run s =
      (N4JKB.createLink parent (KBMap.number (s.heap.uid r)) linkType key).run s := by
  simp only [saveWithChildren, EStateM.run_bind, KBMap.run_get valid, EStateM.run_get,
    checkIfSaved, if_neg named, if_pos known]
  cases (N4JKB.createLink parent (KBMap.number (s.heap.uid r)) linkType key).run s with
  | ok a t => rfl
  | error e t => rfl

theorem run_checkIfSaved_of_unsaved {uid : String} {refObject : Option ℕ}
    (unknown : uid = "" ∨ uid ∉ s.saved) :
    (checkIfSaved parent key linkType refObject uid).run s =
      .ok false { s with saved := s.saved ++ if uid = "" then [] else [uid] } := by
  by_cases none : uid = ""
  · rw [checkIfSaved, if_pos none, if_pos none, List.append_nil]
    rfl
  · simp only [checkIfSaved, if_neg none, EStateM.run_bind, EStateM.run_get,
      if_neg (unknown.resolve_left none)]
    rfl

theorem run_appendToSave (named : s.heap.uid r ≠ "") :
    (appendToSave r).run s = .ok () { s with saved := s.saved ++ [s.heap.uid r] } := by
  simp only [appendToSave, EStateM.run_bind, EStateM.run_get, if_neg named]
  rfl

/-- Any other resource is stored, and then its children are saved. -/
theorem run_save_of_unsaved (valid : ValidUid (s.heap.uid r))
    (unknown : s.heap.uid r = "" ∨ s.heap.uid r ∉ s.saved) :
    (saveWithChildren platform next loops r parent key linkType).run s =
      (forM (loops (s.store r parent key linkType).heap) (saveChild platform next r)).run
        (s.store r parent key linkType) := by
  have assigned := Heap.uid_modifyURI_self s.heap r fun uri =>
    { uri with uid := toString (s.kb.upcoming 0) }
  have stored : (N4JKB.saveResource r parent key linkType >>= fun _ => appendToSave r).run
      { s with saved := s.saved ++ if s.heap.uid r = "" then [] else [s.heap.uid r] } =
        .ok () (s.store r parent key linkType) := by
    refine run_bind_eq_ok_iff.mpr ⟨(), _, rfl, ?_⟩
    rw [run_appendToSave (by rw [assigned]; exact toString_nat_ne_empty _), assigned]
    rfl
  obtain ⟨_, _, first, second⟩ := run_bind_eq_ok_iff.mp stored
  simp only [saveWithChildren, EStateM.run_bind, KBMap.run_get valid, EStateM.run_get,
    run_checkIfSaved_of_unsaved unknown, Bool.false_eq_true, if_false, first, second]

end Runs

end ThinkingUnderstanding
