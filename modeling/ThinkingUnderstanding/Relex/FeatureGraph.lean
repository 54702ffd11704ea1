import Mathlib.Data.Finset.Sort
import ThinkingUnderstanding.Math.Arena
import ThinkingUnderstanding.Math.InsertionMap
import ThinkingUnderstanding.Semantics.StateProgram

/-!
# Graphs of features

A `FeatureNode` has features, which lead to other nodes, or a single text. Every node knows its
parents, the nodes that have features leading to it. The nodes of all parses are in one graph, in
which there may be cycles, and the operations change it.

A node has a map of features or a text, never both, which the type of its contents says.

## Main definitions

* `FeatureGraph` — the nodes
* `FeatureGraph.assign` — what setting a feature does
* `FeatureNode.set`, `FeatureNode.replaceSelfWith`, `FeatureNode.mergeWith` and others — the
  methods, as programs that change the graph
* `FeatureOp`, `FeatureOp.perform` — a call of one of them
-/

namespace ThinkingUnderstanding

/-- What a node has: `kv_pairs`, or, where that is null, `value`. -/
inductive FeatureContent
  | keyed (kv_pairs : Math.InsertionMap String ℕ)
  | valued (value : Option String)

/-- The fields of a `FeatureNode`. -/
structure FeatureObject where
  parents : Finset ℕ := ∅
  content : FeatureContent := .keyed Math.InsertionMap.empty

instance : Inhabited FeatureObject := ⟨{}⟩

/-- All nodes. -/
abbrev FeatureGraph := Math.Arena FeatureObject

/-- The exceptions of the methods. -/
inductive FeatureError
  | runtime (message : String)
  /-- `mergeWith` finds two different nodes under one name, which its message prints. -/
  | inconsistentFeatures (fName : String)
  | nullPointer
  | indexOutOfBounds
  | stackOverflow
deriving DecidableEq

abbrev FeatureProgram := EStateM FeatureError FeatureGraph

/-- The orders in which hash sets and hash maps are enumerated. -/
structure HashOrder where
  nodes : Finset ℕ → List ℕ
  mem_nodes : ∀ s n, n ∈ nodes s ↔ n ∈ s
  names : List String → List String
  names_perm : ∀ keys, (names keys).Perm keys

/-- Nodes in the order of their numbers, and names in the order in which they have been put. -/
def HashOrder.plain : HashOrder where
  nodes s := s.sort (· ≤ ·)
  mem_nodes _ _ := Finset.mem_sort _
  names keys := keys
  names_perm keys := .refl keys

namespace FeatureGraph

/-- `kv_pairs`, when it is not null. -/
def kvPairs (g : FeatureGraph) (n : ℕ) : Option (Math.InsertionMap String ℕ) :=
  match (g.get n).content with
  | .keyed kv_pairs => some kv_pairs
  | .valued _ => none

/-- The node to which a feature leads. -/
def feature (g : FeatureGraph) (n : ℕ) (key : String) : Option ℕ :=
  (g.kvPairs n).bind fun kv_pairs => kv_pairs.get? key

/-- `kv_pairs` is changed. -/
def putKeyed (g : FeatureGraph) (n : ℕ) (kv_pairs : Math.InsertionMap String ℕ) : FeatureGraph :=
  g.modify n fun object => { object with content := .keyed kv_pairs }

/-- `kv_pairs` is set to null, and `value` is changed. -/
def putValue (g : FeatureGraph) (n : ℕ) (value : Option String) : FeatureGraph :=
  g.modify n fun object => { object with content := .valued value }

/-- `parents.add(p)`. -/
def addParent (g : FeatureGraph) (n p : ℕ) : FeatureGraph :=
  g.modify n fun object => { object with parents := insert p object.parents }

/-- `parents.remove(p)`. -/
def removeParent (g : FeatureGraph) (n p : ℕ) : FeatureGraph :=
  g.modify n fun object => { object with parents := object.parents.erase p }

/-- `kv_pairs` after a feature has been set, or removed when the target is null. -/
def assigned (kv_pairs : Math.InsertionMap String ℕ) (key : String) :
    Option ℕ → Math.InsertionMap String ℕ
  | none => kv_pairs.filter fun entry => entry.1 ≠ key
  | some target => kv_pairs.insert key target

/-- The target learns of its parent, unless it is null. -/
def addTarget (g : FeatureGraph) (this : ℕ) : Option ℕ → FeatureGraph
  | none => g
  | some target => g.addParent target this

/-- The old target loses its parent, unless one of the features still leads to it. -/
def dropTarget (g : FeatureGraph) (this : ℕ) (kv_pairs : Math.InsertionMap String ℕ) :
    Option ℕ → FeatureGraph
  | none => g
  | some oldTarget =>
      if oldTarget ∈ kv_pairs.values then g else g.removeParent oldTarget this

/-- `FeatureNode.set`, for a node with the features `kv_pairs`. -/
def assign (g : FeatureGraph) (this : ℕ) (kv_pairs : Math.InsertionMap String ℕ) (key : String)
    (target : Option ℕ) : FeatureGraph :=
  let kv_pairs' := assigned kv_pairs key target
  ((g.addTarget this target).putKeyed this kv_pairs').dropTarget this kv_pairs' (kv_pairs.get? key)

end FeatureGraph

namespace FeatureNode

open FeatureGraph

/-- `FeatureNode.isValued`. -/
def isValued (this : ℕ) : FeatureProgram Bool := do
  return ((← get).kvPairs this).isNone

/-- `FeatureNode.get`. -/
def getFeature (this : ℕ) (key : String) : FeatureProgram (Option ℕ) := do
  match (← get).kvPairs this with
  | none => throw (.runtime "String-valued FeatureNodes have no keys.")
  | some kv_pairs => return kv_pairs.get? key

/-- `FeatureNode.getFeatureNames`. -/
def getFeatureNames (this : ℕ) : FeatureProgram (List String) := do
  match (← get).kvPairs this with
  | none => throw (.runtime "valued FeatureNodes have no features")
  | some kv_pairs => return kv_pairs.keys

/-- `FeatureNode.set`. -/
def setFeature (this : ℕ) (key : String) (target : Option ℕ) : FeatureProgram Unit := do
  match (← get).kvPairs this with
  | none => throw (.runtime "Cannot set key-value pair for a string-valued FeatureNode")
  | some kv_pairs => modify fun g => g.assign this kv_pairs key target

/-- `FeatureNode.isEmpty`. -/
def isEmpty (this : ℕ) : FeatureProgram Bool := do
  match ((← get).get this).content with
  | .valued value => return value.isNone
  | .keyed kv_pairs => return kv_pairs.size = 0

/-- `FeatureNode.setValue`. -/
def setValue (this : ℕ) (value : Option String) : FeatureProgram Unit := do
  if (← isValued this) then
    match value with
    | none => throw (.runtime "Cannot set to null value")
    | some text => modify fun g => g.putValue this (some text)
  else throw (.runtime "Cannot set the value of a non-valued FeatureNode")

/-- `FeatureNode.forceValue`. -/
def forceValue (this : ℕ) (val : Option String) : FeatureProgram Unit := do
  match (← get).kvPairs this with
  | none => setValue this val
  | some kv_pairs =>
      if kv_pairs.size > 0 then throw (.runtime "Must clear features before forcing value.")
      else
        modify fun g => g.putValue this none
        setValue this val

/-- `FeatureNode.forceFeatures`. -/
def forceFeatures (this : ℕ) : FeatureProgram Unit := do
  match ((← get).get this).content with
  | .valued (some _) => throw (.runtime "Must set value to null before forcing features.")
  | .valued none => modify fun g => g.putKeyed this Math.InsertionMap.empty
  | .keyed _ => return ()

/-- `new FeatureNode()`. -/
def newNode : FeatureProgram ℕ :=
  modifyGet fun g => (g.size, g.alloc {})

/-- `new FeatureNode(str)`. -/
def newValue (str : String) : FeatureProgram ℕ := do
  let n ← newNode
  forceValue n (some str)
  return n

/-- `FeatureNode.add(key)`. -/
def add (this : ℕ) (key : String) : FeatureProgram ℕ := do
  if (← isValued this) then
    throw (.runtime "Cannot add a key for a string-valued FeatureNode")
  else
    let f ← newNode
    setFeature this key (some f)
    return f

/-- `FeatureNode.add(key, value)`. -/
def addValue (this : ℕ) (key : String) (value : Option String) : FeatureProgram Unit := do
  let fn ← add this key
  forceValue fn value

/-- `FeatureNode.getOrMake`. -/
def getOrMake (this : ℕ) (key : String) : FeatureProgram ℕ := do
  match ← getFeature this key with
  | some ret => return ret
  | none =>
      let ret ← newNode
      setFeature this key (some ret)
      return ret

section Orders

variable (order : HashOrder)

/-- `FeatureNode.substitute`. -/
def substitute (this oldF newF : ℕ) : FeatureProgram Unit := do
  if oldF = newF then return ()
  else
    let names ← getFeatureNames this
    forM (order.names names) fun name => do
      match ← getFeature this name with
      | none => throw .nullPointer
      | some target => if target = oldF then setFeature this name (some newF) else return ()

/-- `FeatureNode.replaceSelfWith`. -/
def replaceSelfWith (this other : ℕ) : FeatureProgram Unit := do
  if other = this then return ()
  else
    let parents := ((← get).get this).parents
    forM (order.nodes parents) fun p => substitute order p this other
    if ((← get).get this).parents = ∅ then return ()
    else throw (.runtime "replace self failed")

/-- What `mergeWith` throws for the name `fName`, which leads to `thisf` and `otherf`. -/
def inconsistent (fName : String) (thisf otherf : Option ℕ) : FeatureProgram Unit := do
  match thisf, otherf with
  | some thisf, some otherf =>
      if (← isValued thisf) || (← isValued otherf) then
        throw (.runtime "String-valued FeatureNodes have no keys.")
      else throw (.inconsistentFeatures fName)
  | _, _ => throw .nullPointer

/-- What `mergeWith` throws for a node with a value. -/
def differentValue : FeatureError :=
  .runtime ("Cannot merge a nonvalued node or a node with a different value " ++
    "into a non-empty valued node")

/-- `FeatureNode.mergeWith`. -/
def mergeWith (this other : ℕ) : FeatureProgram ℕ := do
  if other = this then return this
  else if (← isEmpty other) then
    replaceSelfWith order other this
    return other
  else if (← isEmpty this) then
    replaceSelfWith order this other
    return this
  else
    match ((← get).get this).content, ((← get).get other).content with
    | .valued value, .valued value' =>
        if value' = value then return this else throw differentValue
    | .valued _, .keyed _ => throw differentValue
    | .keyed _, .valued _ => throw (.runtime
        "Cannot merge a non-empty valued node into a non-empty normal feature node")
    | .keyed _, .keyed kv_pairs =>
        forM (order.names kv_pairs.keys) fun fName => do
          let otherf ← getFeature other fName
          let thisf ← getFeature this fName
          if otherf = thisf then return () else inconsistent fName thisf otherf
        return this

/-- `FeatureNode.copyInto`. -/
def copyInto (this other : ℕ) : FeatureProgram ℕ := do
  if other = this then return this
  else
    match (← isValued this), (← isValued other) with
    | true, false => throw (.runtime
        "Cannot merge a nonvalued node into a non-empty valued node")
    | false, true => throw (.runtime
        "Cannot merge a non-empty valued node into a non-empty normal feature node")
    | true, true => return this
    | false, false =>
        let names ← getFeatureNames other
        forM (order.names names) fun fName => do
          setFeature this fName (← getFeature other fName)
        return this

end Orders

/-- `FeatureNode.makePath`, from the node `cur` on. -/
def makePath (cur : ℕ) (path : List String) (target : ℕ) (forceTarget : Bool) :
    FeatureProgram Unit :=
  match path with
  | [] => return ()
  | name :: feats => do
      match ← getFeature cur name with
      | some next => makePath next feats target forceTarget
      | none =>
          if feats.isEmpty then
            if !forceTarget && (← getFeature cur name).isSome then
              throw (.runtime "Path already exists")
            else setFeature cur name (some target)
          else
            let next ← newNode
            setFeature cur name (some next)
            makePath next feats target forceTarget

end FeatureNode

/-- A call of a method that changes the graph. -/
inductive FeatureOp
  | new
  | newValue (str : String)
  | forceFeatures (this : ℕ)
  | forceValue (this : ℕ) (val : Option String)
  | setValue (this : ℕ) (value : Option String)
  | add (this : ℕ) (key : String)
  | addValue (this : ℕ) (key : String) (value : Option String)
  | substitute (this oldF newF : ℕ)
  | mergeWith (this other : ℕ)
  | copyInto (this other : ℕ)
  | replaceSelfWith (this other : ℕ)
  | set (this : ℕ) (key : String) (target : Option ℕ)
  | getOrMake (this : ℕ) (key : String)
  | makePath (this : ℕ) (path : List String) (target : ℕ) (forceTarget : Bool)

/-- The call is made. -/
def FeatureOp.perform (order : HashOrder) : FeatureOp → FeatureProgram Unit
  | new => discard FeatureNode.newNode
  | newValue str => discard (FeatureNode.newValue str)
  | forceFeatures this => FeatureNode.forceFeatures this
  | forceValue this val => FeatureNode.forceValue this val
  | setValue this value => FeatureNode.setValue this value
  | add this key => discard (FeatureNode.add this key)
  | addValue this key value => FeatureNode.addValue this key value
  | substitute this oldF newF => FeatureNode.substitute order this oldF newF
  | mergeWith this other => discard (FeatureNode.mergeWith order this other)
  | copyInto this other => discard (FeatureNode.copyInto order this other)
  | replaceSelfWith this other => FeatureNode.replaceSelfWith order this other
  | set this key target => FeatureNode.setFeature this key target
  | getOrMake this key => discard (FeatureNode.getOrMake this key)
  | makePath this path target forceTarget => FeatureNode.makePath this path target forceTarget

/-- The graph that calls make, one after another. -/
def FeatureGraph.madeBy (ops : List (HashOrder × FeatureOp)) : FeatureGraph :=
  Semantics.runAll (fun op => op.2.perform op.1) ops Math.Arena.empty

end ThinkingUnderstanding
