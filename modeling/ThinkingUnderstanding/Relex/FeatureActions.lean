import ThinkingUnderstanding.Relex.FeaturePaths

/-!
# Actions on features

An action of a rule says that a path is to lead to the same node as another path, or to have a
value. The first kind is unification of two paths in a graph. It makes both lead to one node, with
two exceptions: two nodes that are different and have features or values stay apart, if the first
one says all that the second one says; and if neither path was there, then the second one may lead
into the middle of the first one, which has been made before.

## Main definitions

* `SemanticView.appendToSelf` — groups of nodes
* `FeatureAction`, `FeatureAction.doAction` — the actions
* `FeatureGraph.Conflict` — why two paths cannot be unified
* `FeatureAction.PathsUnified` — what the unification of two paths leaves

## Main results

* `FeatureAction.doAction_unify_madeBy` — the unification of two paths
-/

namespace ThinkingUnderstanding

open Math Semantics

/-! ### Groups -/

namespace SemanticView

open FeatureNode

/-- `MEMBER_PREFIX`. -/
def memberPrefix : String := "member"

/-- The name of a member, which is longer than the prefix. -/
def isMemberName (name : String) : Bool :=
  name.toList.length > memberPrefix.toList.length && memberPrefix.toList.isPrefixOf name.toList

/-- `SemanticView.groupMembers`. -/
def groupMembers (order : HashOrder) (ths : ℕ) : FeatureProgram (List ℕ) := do
  match (← get).kvPairs ths with
  | none => return []
  | some kv_pairs =>
      return ((order.names kv_pairs.keys).filter isMemberName).filterMap kv_pairs.get?

/-- `SemanticView.isGroup`. -/
def isGroup (order : HashOrder) (ths : ℕ) : FeatureProgram Bool := do
  return (← groupMembers order ths).length > 0

/-- `SemanticView.hasGroupMember`. -/
def hasGroupMember (order : HashOrder) (ths other : ℕ) : FeatureProgram Bool := do
  return other ∈ (← groupMembers order ths)

/-- `SemanticView.addGroupMember`, with the depth that the stack has. -/
def addGroupMember (order : HashOrder) : ℕ → ℕ → ℕ → FeatureProgram Unit
  | 0, _, _ => throw .stackOverflow
  | depth + 1, ths, other => do
      if (← isGroup order other) then
        forM (← groupMembers order other) fun member => addGroupMember order depth ths member
      else if (← hasGroupMember order ths other) then return ()
      else
        let numGroupMembers := (← groupMembers order ths).length
        setFeature ths (memberPrefix ++ toString numGroupMembers) (some other)

/-- `SemanticView.newGroupFromSelf`. -/
def newGroupFromSelf (order : HashOrder) (depth ths : ℕ) : FeatureProgram ℕ := do
  if (← isGroup order ths) then return ths
  else
    let group ← newNode
    addGroupMember order depth group ths
    return group

/-- `SemanticView.appendToSelf`. -/
def appendToSelf (order : HashOrder) (depth ths other : ℕ) (parent : Option ℕ)
    (featName : String) : FeatureProgram Unit := do
  if other = ths then return ()
  else if (← isGroup order ths) then addGroupMember order depth ths other
  else
    let group ← newGroupFromSelf order depth ths
    match parent with
    | none => throw .nullPointer
    | some parent =>
        setFeature parent featName (some group)
        addGroupMember order depth group other

end SemanticView

/-! ### Actions -/

/-- What stands on the right: `targetPath`, or `targetString`. -/
inductive FeatureTarget
  | path (targetPath : FeaturePath)
  | string (targetString : String)

/-- `=`, `<=` and `+=`. -/
inductive ActionSeparator
  | equals
  | copyIn
  | append

/-- The fields of a `FeatureAction`. -/
structure FeatureAction where
  path : FeaturePath
  target : FeatureTarget
  separator : ActionSeparator

namespace FeatureAction

open FeatureNode

variable (order : HashOrder) (depth : ℕ)

/-- A `makePath` whose path may be null. -/
def makeTargetPath (f : ℕ) (target : FeatureTarget) (left : ℕ) : FeatureProgram Unit :=
  match target with
  | .path targetPath => makePath f targetPath.path left false
  | .string _ => throw .nullPointer

/-- A node gets a text, unless it has features. -/
def setString (left : ℕ) (rightValStr : String) : FeatureProgram Unit := do
  if !(← isEmpty left) && !(← isValued left) then
    throw (.runtime "Cannot set a non-empty non-valued node to a value")
  else forceValue left (some rightValStr)

/-- The path is made, and leads to a new node. -/
def makeLeft (action : FeatureAction) (f : ℕ) : FeatureProgram ℕ := do
  let left ← newNode
  makePath f action.path.path left false
  return left

/-- `FeatureAction.doActionEquals`. -/
def doActionEquals (action : FeatureAction) (f : ℕ) (left right : Option ℕ)
    (rightValStr : Option String) : FeatureProgram Unit := do
  match right with
  | none =>
      let left ← match left with
        | none => makeLeft action f
        | some left => pure left
      match rightValStr with
      | none => makeTargetPath f action.target left
      | some rightValStr => setString left rightValStr
  | some right =>
      match left with
      | none => makePath f action.path.path right false
      | some left => discard (mergeWith order left right)

/-- `FeatureAction.doActionCopyIn`. -/
def doActionCopyIn (action : FeatureAction) (f : ℕ) (left right : Option ℕ)
    (rightValStr : Option String) : FeatureProgram Unit := do
  let left ← match left with
    | none => makeLeft action f
    | some left => pure left
  match right, rightValStr with
  | none, none => makeTargetPath f action.target left
  | none, some rightValStr => setString left rightValStr
  | some right, _ => discard (copyInto order left right)

/-- The node before the last step of the path, and the last step. -/
def leftParent (action : FeatureAction) (f : ℕ) : FeatureProgram (Option ℕ × String) := do
  let leftParentPath ← MonadExcept.ofExcept (action.path.copy >>= FeaturePath.removeLastStep)
  let leftParent ← pathTarget f leftParentPath.path
  let leftFeature ← MonadExcept.ofExcept action.path.lastStep
  return (leftParent, leftFeature)

/-- A text in a concatenation. -/
def concatenated (text : Option String) : String := text.getD "null"

/-- `FeatureAction.doActionAppend`. -/
def doActionAppend (action : FeatureAction) (f : ℕ) (left right : Option ℕ)
    (rightValStr : Option String) : FeatureProgram Unit := do
  match left with
  | none => doActionEquals order action f left right rightValStr
  | some ths =>
      if (← isEmpty ths) then doActionEquals order action f left right rightValStr
      else if (← isValued ths) then
        let leftValStr ← getValue ths
        let rightValStr ← match right with
          | none => pure rightValStr
          | some right =>
              if (← isValued right) then getValue right
              else throw (.runtime "Cannot append nonvalued node to a valued one.")
        forceValue ths (some (concatenated leftValStr ++ "_" ++ concatenated rightValStr))
      else
        match right with
        | none => throw (.runtime "Cannot append an empty node or value to a non-valued node")
        | some right =>
            if (← isValued right) || (← isEmpty right) then
              throw (.runtime "Cannot append an empty node or value to a non-valued node")
            else
              let (parent, leftFeature) ← leftParent action f
              SemanticView.appendToSelf order depth ths right parent leftFeature

/-- `FeatureAction.doActionClear`. -/
def doActionClear (action : FeatureAction) (f : ℕ) (left : Option ℕ) : FeatureProgram Unit := do
  match left with
  | none => return ()
  | some _ =>
      match ← leftParent action f with
      | (none, _) => throw .nullPointer
      | (some parent, leftFeature) => setFeature parent leftFeature none

/-- The action of the separator. -/
def doSeparator (action : FeatureAction) (f : ℕ) (left right : Option ℕ)
    (rightValStr : Option String) : FeatureProgram Unit :=
  match action.separator with
  | .equals => doActionEquals order action f left right rightValStr
  | .copyIn => doActionCopyIn order action f left right rightValStr
  | .append => doActionAppend order depth action f left right rightValStr

/-- `FeatureAction.doAction`, where `vars` has the nodes of the variables. -/
def doAction (action : FeatureAction) (f : ℕ) (vars : String → Option ℕ) :
    FeatureProgram Unit := do
  let left ← pathTarget f action.path.path
  match action.target with
  | .path targetPath =>
      let right ← pathTarget f targetPath.path
      doSeparator order depth action f left right none
  | .string str =>
      match str.toList with
      | [] => throw .indexOutOfBounds
      | c :: varName =>
          if c = '$' then doSeparator order depth action f left (vars (String.ofList varName)) none
          else if str = "%" then doActionClear action f left
          else
            match left with
            | none =>
                let right ← newValue str
                doSeparator order depth action f none (some right) none
            | some left => doSeparator order depth action f (some left) none (some str)

end FeatureAction

/-! ### The unification of two paths -/

namespace FeatureGraph

/-- A node with a value is in the way of a path. -/
def Blocked (g : FeatureGraph) (f : ℕ) (path : List String) : Prop :=
  ∃ before name after p, path = before ++ name :: after ∧ g.pathTarget f before = some p ∧
    g.kvPairs p = none

/-- The paths lead to different nodes, neither of which is empty. -/
structure Apart (g : FeatureGraph) (f : ℕ) (path targetPath : List String) (left right : ℕ) :
    Prop where
  left_ : g.pathTarget f path = some left
  right_ : g.pathTarget f targetPath = some right
  different : left ≠ right
  full : ¬ (g.get left).content.IsEmpty ∧ ¬ (g.get right).content.IsEmpty

/-- Two paths cannot be unified. -/
def Conflict (g : FeatureGraph) (f : ℕ) (path targetPath : List String) : Prop :=
  g.Blocked f path ∨ g.Blocked f targetPath ∨ ∃ left right, g.Apart f path targetPath left right ∧
    ¬ (g.get left).content.Covers (g.get right).content

variable {g g' : FeatureGraph} {cur f target left right p q n : ℕ} {name : String}
  {path targetPath before after feats : List String} {kv_pairs : InsertionMap String ℕ}

/-! ### Nodes in the way -/

theorem not_blocked_nil : ¬ g.Blocked cur [] := by
  rintro ⟨before, name, after, p, split, -⟩
  simp at split

theorem blocked_cons : g.Blocked cur (name :: feats) ↔
    g.kvPairs cur = none ∨ ∃ next, g.feature cur name = some next ∧ g.Blocked next feats := by
  constructor
  · rintro ⟨before, name', after, p, split, start, valued⟩
    cases before with
    | nil =>
      obtain rfl : cur = p := Option.some.inj start
      exact Or.inl valued
    | cons first before =>
      obtain ⟨rfl, rest⟩ := List.cons.inj split
      obtain ⟨next, step, start⟩ := Option.bind_eq_some_iff.mp start
      exact Or.inr ⟨next, step, before, name', after, p, rest, start, valued⟩
  · rintro (valued | ⟨next, step, before, name', after, p, rfl, start, valued⟩)
    · exact ⟨[], name, feats, cur, rfl, rfl, valued⟩
    · refine ⟨name :: before, name', after, p, rfl, ?_, valued⟩
      rw [pathTarget, step]
      exact start

theorem kvPairs_of_feature {next : ℕ} (leads : g.feature cur name = some next) :
    g.kvPairs cur ≠ none := by
  obtain ⟨kv_pairs, own, -⟩ := feature_eq_some_iff.mp leads
  rw [own]
  exact Option.some_ne_none kv_pairs

/-- No node is in the way of a path that leads somewhere. -/
theorem not_blocked_of_pathTarget (leads : g.pathTarget cur path = some n) :
    ¬ g.Blocked cur path := by
  induction path generalizing cur with
  | nil => exact not_blocked_nil
  | cons name feats ih =>
    obtain ⟨next, step, rest⟩ := Option.bind_eq_some_iff.mp leads
    rw [blocked_cons]
    rintro (valued | ⟨next', step', blocked⟩)
    · exact kvPairs_of_feature step valued
    · rw [step] at step'
      cases step'
      exact ih rest blocked

/-- No node is in the way of a path that ends at a missing feature. -/
theorem not_blocked_of_missing (start : g.pathTarget cur before = some p)
    (own : g.kvPairs p = some kv_pairs) (fresh : kv_pairs.get? name = none) :
    ¬ g.Blocked cur (before ++ name :: after) := by
  induction before generalizing cur with
  | nil =>
    obtain rfl : cur = p := Option.some.inj start
    rw [List.nil_append, blocked_cons, own]
    rintro (valued | ⟨next, step, -⟩)
    · cases valued
    · rw [feature, own, Option.bind_some, fresh] at step
      cases step
  | cons first before ih =>
    obtain ⟨next, step, rest⟩ := Option.bind_eq_some_iff.mp start
    rw [List.cons_append, blocked_cons]
    rintro (valued | ⟨next', step', blocked⟩)
    · exact kvPairs_of_feature step valued
    · rw [step] at step'
      cases step'
      exact ih rest blocked

/-- A node with a value stays in the way when the graph grows. -/
theorem GrownAt.blocked (grown : g.GrownAt g' p name target) (linked : g.Linked)
    (blocked : g.Blocked f path) : g'.Blocked f path := by
  obtain ⟨before, name', after, q, split, start, valued⟩ := blocked
  refine ⟨before, name', after, q, split, grown.pathTarget linked start, ?_⟩
  obtain ⟨kv_pairs, n, own, -⟩ := grown.added
  have apart : q ≠ p := by
    rintro rfl
    rw [own] at valued
    cases valued
  have below : q < g.size := by
    by_contra beyond
    rw [kvPairs_of_size_le (Nat.not_lt.mp beyond)] at valued
    cases valued
  rw [kvPairs, grown.others q below apart, ← kvPairs, valued]

/-! ### Paths in a graph that has grown to an empty node -/

/-- From the nodes that have been added, and from the target, only such nodes are reached. -/
theorem GrownAt.new_of_new (grown : g.GrownAt g' p name target)
    (empty : g'.kvPairs target = some InsertionMap.empty) (start : cur = target ∨ g.size ≤ cur)
    (leads : g'.pathTarget cur path = some n) : n = target ∨ g.size ≤ n := by
  induction path generalizing cur with
  | nil =>
    obtain rfl : cur = n := Option.some.inj leads
    exact start
  | cons name' feats ih =>
    obtain ⟨next, step, rest⟩ := Option.bind_eq_some_iff.mp leads
    refine ih ?_ rest
    rcases start with rfl | beyond
    · rw [FeatureGraph.feature, empty] at step
      cases step
    · obtain ⟨kv_pairs, own, new⟩ := grown.new cur beyond
      rw [FeatureGraph.feature, own, Option.bind_some] at step
      exact new name' next step

/-- What is reached was reached before, or is new. -/
theorem GrownAt.old_or_new (grown : g.GrownAt g' p name target)
    (empty : g'.kvPairs target = some InsertionMap.empty)
    (leads : g'.pathTarget cur path = some n) :
    g.pathTarget cur path = some n ∨ n = target ∨ g.size ≤ n := by
  induction path generalizing cur with
  | nil => exact Or.inl leads
  | cons name' feats ih =>
    by_cases beyond : g.size ≤ cur
    · exact Or.inr (grown.new_of_new empty (Or.inr beyond) leads)
    obtain ⟨next, step, rest⟩ := Option.bind_eq_some_iff.mp leads
    have continued : g.feature cur name' = some next →
        g.pathTarget cur (name' :: feats) = some n ∨ n = target ∨ g.size ≤ n := by
      intro old
      rw [FeatureGraph.pathTarget, old]
      exact ih rest
    by_cases here : cur = p
    · subst here
      obtain ⟨kv_pairs, m, own, -, own', new⟩ := grown.added
      rw [FeatureGraph.feature, own', Option.bind_some, InsertionMap.get?_insert] at step
      split_ifs at step with same
      · obtain rfl : m = next := Option.some.inj step
        exact Or.inr (grown.new_of_new empty new rest)
      · exact continued (by rw [FeatureGraph.feature, own, Option.bind_some, step])
    · refine continued ?_
      rw [feature_eq, ← grown.others cur (Nat.not_le.mp beyond) here, ← feature_eq, step]

/-- No other nodes come into the way. -/
theorem GrownAt.blocked_of_blocked (grown : g.GrownAt g' p name target)
    (empty : g'.kvPairs target = some InsertionMap.empty) (blocked : g'.Blocked f path) :
    g.Blocked f path := by
  obtain ⟨before, name', after, q, split, start, valued⟩ := blocked
  have below : q < g.size := by
    by_contra beyond
    obtain ⟨kv_pairs, own, -⟩ := grown.new q (Nat.not_lt.mp beyond)
    rw [own] at valued
    cases valued
  have apart : q ≠ p := by
    rintro rfl
    obtain ⟨kv_pairs, n, -, -, own', -⟩ := grown.added
    rw [own'] at valued
    cases valued
  refine ⟨before, name', after, q, split, ?_, ?_⟩
  · rcases grown.old_or_new empty start with old | rfl | beyond
    · exact old
    · rw [empty] at valued
      cases valued
    · omega
  · rw [kvPairs, ← grown.others q below apart, ← kvPairs, valued]

theorem pathTarget_alloc : pathTarget (g.alloc {}) cur path = g.pathTarget cur path := by
  induction path generalizing cur with
  | nil => rfl
  | cons name feats ih =>
    rw [pathTarget, pathTarget, feature, feature, FeatureNode.kvPairs_alloc]
    exact congrArg _ (funext fun next => ih)

theorem blocked_alloc : Blocked (g.alloc {}) f path ↔ g.Blocked f path := by
  simp only [Blocked, pathTarget_alloc, FeatureNode.kvPairs_alloc]

theorem Linked.lt_size_of_pathTarget (linked : g.Linked) (present : cur < g.size)
    (leads : g.pathTarget cur path = some n) : n < g.size := by
  induction path generalizing cur with
  | nil => exact Option.some.inj leads ▸ present
  | cons name feats ih =>
    obtain ⟨next, step, rest⟩ := Option.bind_eq_some_iff.mp leads
    exact ih (linked.lt_size step).2 rest

/-! ### Paths in a graph where an empty node has been replaced -/

theorem feature_of_isEmpty (empty : (g.get cur).content.IsEmpty) : g.feature cur name = none := by
  rw [feature_eq]
  cases content : (g.get cur).content with
  | valued value => rfl
  | keyed kv_pairs =>
    rw [content] at empty
    have bare : kv_pairs.entries = [] := List.eq_nil_of_length_eq_zero empty
    simp [FeatureContent.target, InsertionMap.get?, bare]

/-- A path leads to the other node instead. -/
theorem pathTarget_redirected {oldF newF : ℕ} (redirected : g.Redirected g' oldF newF)
    (empty : (g.get oldF).content.IsEmpty) (leads : g.pathTarget cur path = some n)
    (moves : n = oldF → path ≠ []) :
    g'.pathTarget cur path = some (if n = oldF then newF else n) := by
  induction path generalizing cur with
  | nil =>
    rw [if_neg fun same => moves same rfl]
    exact leads
  | cons name feats ih =>
    obtain ⟨next, step, rest⟩ := Option.bind_eq_some_iff.mp leads
    rw [pathTarget, feature_redirected redirected, step, Option.map_some, Option.bind_some]
    by_cases here : next = oldF
    · subst here
      cases feats with
      | nil =>
        obtain rfl : next = n := Option.some.inj rest
        rw [if_pos rfl]
        rfl
      | cons name' feats =>
        rw [pathTarget, feature_of_isEmpty empty] at rest
        cases rest
    · rw [if_neg here]
      refine ih rest fun same none_ => here ?_
      rw [none_] at rest
      exact (Option.some.inj rest).trans same

end FeatureGraph

namespace FeatureAction

open FeatureGraph FeatureNode

/-- What the unification of two paths leaves. -/
inductive PathsUnified (g : FeatureGraph) (f : ℕ) (path targetPath : List String) :
    FeatureGraph → Prop
  /-- They lead to one node. -/
  | same {g' : FeatureGraph} {n : ℕ} : g'.pathTarget f path = some n →
      g'.pathTarget f targetPath = some n → PathsUnified g f path targetPath g'
  /-- They lead to two nodes as before, the first of which says what the second one says. -/
  | apart {left right : ℕ} : g.Apart f path targetPath left right →
      (g.get left).content.Covers (g.get right).content → PathsUnified g f path targetPath g
  /-- Neither was there, and both lead to nodes that are new. -/
  | made {g' : FeatureGraph} {n n' : ℕ} : g.pathTarget f path = none →
      g.pathTarget f targetPath = none → g'.pathTarget f path = some n →
      g'.pathTarget f targetPath = some n' → g.size ≤ n → g.size ≤ n' →
      PathsUnified g f path targetPath g'

variable (order : HashOrder) (depth : ℕ) {g g' : FeatureGraph} {f this target left right n : ℕ}
  {path targetPath : List String}

/-- How `makePath` ends, by what is in the way. -/
theorem makePath_cases (linked : g.Linked) (present : this < g.size) (path : List String)
    (target : ℕ) (forceTarget : Bool) :
    (g.Blocked this path ∧ ∃ e, (makePath this path target forceTarget).run g = .error e g) ∨
    (¬ g.Blocked this path ∧ (∃ n, g.pathTarget this path = some n) ∧
      (makePath this path target forceTarget).run g = .ok () g) ∨
    (¬ g.Blocked this path ∧ g.pathTarget this path = none ∧ ∃ g' before p name,
      g.pathTarget this before = some p ∧ g.GrownAt g' p name target ∧
      g'.pathTarget this path = some target ∧
      (makePath this path target forceTarget).run g = .ok () g') := by
  have made := pathMade_makePath linked present path target forceTarget
  generalize (makePath this path target forceTarget).run g = result at made ⊢
  cases made with
  | there leads =>
    exact Or.inr (Or.inl ⟨not_blocked_of_pathTarget leads, ⟨_, leads⟩, rfl⟩)
  | grown split start grown leads =>
    obtain ⟨kv_pairs, n, own, fresh, -⟩ := grown.added
    subst split
    refine Or.inr (Or.inr ⟨not_blocked_of_missing start own fresh, ?_, _, _, _, _, start, grown,
      leads, rfl⟩)
    rw [pathTarget_append, start, Option.bind_some, FeatureGraph.pathTarget, feature, own,
      Option.bind_some, fresh]
    rfl
  | blocked split start valued =>
    exact Or.inl ⟨⟨_, _, _, _, split, start, valued⟩, _, rfl⟩

theorem not_conflict_of_pathTarget (leads : g.pathTarget f path = some left)
    (leads' : g.pathTarget f targetPath = some right)
    (covers : g.Apart f path targetPath left right →
      (g.get left).content.Covers (g.get right).content) :
    ¬ g.Conflict f path targetPath := by
  rintro (blocked | blocked | ⟨n, n', apart, differ⟩)
  · exact not_blocked_of_pathTarget leads blocked
  · exact not_blocked_of_pathTarget leads' blocked
  · obtain rfl : left = n := Option.some.inj (leads.symm.trans apart.left_)
    obtain rfl : right = n' := Option.some.inj (leads'.symm.trans apart.right_)
    exact differ (covers apart)

/-- A node behind an empty one is not reached by following a path. -/
theorem ne_nil_of_isEmpty (leads : g.pathTarget f path = some left)
    (leads' : g.pathTarget f targetPath = some right) (different : left ≠ right)
    (empty : (g.get left).content.IsEmpty) : path ≠ [] := by
  rintro rfl
  obtain rfl : f = left := Option.some.inj leads
  cases targetPath with
  | nil => exact different (Option.some.inj leads')
  | cons name feats =>
    rw [FeatureGraph.pathTarget, feature_of_isEmpty empty] at leads'
    cases leads'

/-- Both paths lead to the node that replaces the other one. -/
theorem pathsUnified_of_redirected (redirected : g.Redirected g' left right)
    (leads : g.pathTarget f path = some left) (leads' : g.pathTarget f targetPath = some right)
    (different : left ≠ right) (empty : (g.get left).content.IsEmpty) :
    g'.pathTarget f path = some right ∧ g'.pathTarget f targetPath = some right := by
  constructor
  · rw [pathTarget_redirected redirected empty leads fun _ =>
      ne_nil_of_isEmpty leads leads' different empty, if_pos rfl]
  · rw [pathTarget_redirected redirected empty leads' fun same => absurd same.symm different,
      if_neg fun same => different same.symm]

/-- Two nodes are unified. -/
theorem run_mergeWith_paths (linked : g.Linked) (leads : g.pathTarget f path = some left)
    (leads' : g.pathTarget f targetPath = some right) :
    (g.Conflict f path targetPath ∧ ∃ e g', (mergeWith order left right).run g = .error e g') ∨
      (¬ g.Conflict f path targetPath ∧ ∃ n g', (mergeWith order left right).run g = .ok n g' ∧
        PathsUnified g f path targetPath g') := by
  have merged := mergedTo_mergeWith order linked left right
  generalize (mergeWith order left right).run g = result at merged ⊢
  have free := not_conflict_of_pathTarget leads leads'
  cases merged with
  | same same =>
    subst same
    exact Or.inr ⟨free fun apart => absurd rfl apart.different, _, _, rfl,
      PathsUnified.same leads leads'⟩
  | otherEmpty different empty redirected =>
    obtain ⟨ends', ends⟩ := pathsUnified_of_redirected redirected leads' leads different empty
    exact Or.inr ⟨free fun apart => absurd empty apart.full.2, _, _, rfl,
      PathsUnified.same ends ends'⟩
  | thisEmpty different _ empty redirected =>
    obtain ⟨ends, ends'⟩ :=
      pathsUnified_of_redirected redirected leads leads' (Ne.symm different) empty
    exact Or.inr ⟨free fun apart => absurd empty apart.full.1, _, _, rfl,
      PathsUnified.same ends ends'⟩
  | covers different full full' covers =>
    exact Or.inr ⟨free fun _ => covers, _, _, rfl,
      PathsUnified.apart ⟨leads, leads', Ne.symm different, full', full⟩ covers⟩
  | fails different full full' differ =>
    exact Or.inl ⟨Or.inr (Or.inr ⟨left, right,
      ⟨leads, leads', Ne.symm different, full', full⟩, differ⟩), _, _, rfl⟩

/-- One path is made to lead where the other one leads. -/
theorem run_makePath_paths (linked : g.Linked) (present : f < g.size)
    (missing : g.pathTarget f path = none) (leads : g.pathTarget f targetPath = some n) :
    (g.Blocked f path ∧ ∃ e, (makePath f path n false).run g = .error e g) ∨
      (¬ g.Blocked f path ∧ ∃ g', (makePath f path n false).run g = .ok () g' ∧
        g'.pathTarget f path = some n ∧ g'.pathTarget f targetPath = some n) := by
  rcases makePath_cases linked present path n false with
    blocked | ⟨-, ⟨m, there⟩, -⟩ | ⟨free, -, g', before, p, name, -, grown, ends, run⟩
  · exact Or.inl blocked
  · rw [missing] at there
    cases there
  · exact Or.inr ⟨free, g', run, ends, grown.pathTarget linked leads⟩

/-- Both paths are made, the second one after the first one. -/
theorem run_makeLeft_paths (linked : g.Linked) (present : f < g.size)
    (path targetPath : FeaturePath) (missing : g.pathTarget f path.path = none)
    (missing' : g.pathTarget f targetPath.path = none) :
    let action : FeatureAction := ⟨path, .path targetPath, .equals⟩
    let program : FeatureProgram Unit := do
      let left ← makeLeft action f
      makeTargetPath f action.target left
    (g.Conflict f path.path targetPath.path ∧ ∃ e g', program.run g = .error e g') ∨
      (¬ g.Conflict f path.path targetPath.path ∧ ∃ g', program.run g = .ok () g' ∧
        PathsUnified g f path.path targetPath.path g') := by
  intro action program
  have unify : program.run g = (do
      makePath f path.path g.size false
      makePath f targetPath.path g.size false : FeatureProgram Unit).run (g.alloc {}) := by
    simp only [program, action, makeLeft, makeTargetPath, bind_assoc, pure_bind]
    rw [EStateM.run_bind]
    rfl
  rw [unify, EStateM.run_bind]
  have present₁ : f < Arena.size (g.alloc {}) := by
    rw [Arena.size_alloc]
    omega
  have free : g.Blocked f path.path ∨ g.Blocked f targetPath.path ↔
      g.Conflict f path.path targetPath.path := by
    refine ⟨fun either => either.imp_right Or.inl, ?_⟩
    rintro (blocked | blocked | ⟨n, n', apart, -⟩)
    · exact Or.inl blocked
    · exact Or.inr blocked
    · have leads := apart.left_
      rw [missing] at leads
      cases leads
  rw [← free]
  rcases makePath_cases linked.alloc present₁ path.path g.size false with
    ⟨blocked, e, run⟩ | ⟨-, ⟨m, there⟩, -⟩ |
      ⟨free₁, -, g₁, before, p, name, start, grown, ends, run⟩
  · rw [run]
    exact Or.inl ⟨Or.inl (blocked_alloc.mp blocked), e, _, rfl⟩
  · rw [pathTarget_alloc, missing] at there
    cases there
  rw [run]
  rw [blocked_alloc] at free₁
  have size := grown.size
  have empty : g₁.kvPairs g.size = some InsertionMap.empty := by
    rw [pathTarget_alloc] at start
    have below := linked.lt_size_of_pathTarget present start
    rw [kvPairs, grown.others g.size (by rw [Arena.size_alloc]; omega) (by omega), ← kvPairs,
      kvPairs_alloc_size]
  have lift : g.Blocked f targetPath.path ↔ g₁.Blocked f targetPath.path := by
    rw [← blocked_alloc]
    exact ⟨grown.blocked linked.alloc, grown.blocked_of_blocked empty⟩
  rcases makePath_cases grown.linked (lt_of_lt_of_le present₁ size) targetPath.path g.size false
    with ⟨blocked, e, run₁⟩ | ⟨free₂, ⟨m, there⟩, run₁⟩ |
      ⟨free₂, -, g₂, -, q, name', -, grown₁, ends₁, run₁⟩
  · exact Or.inl ⟨Or.inr (lift.mpr blocked), e, _, run₁⟩
  · refine Or.inr ⟨not_or.mpr ⟨free₁, fun blocked => free₂ (lift.mp blocked)⟩, _, run₁,
      PathsUnified.made missing missing' ends there le_rfl ?_⟩
    rcases grown.old_or_new empty there with old | rfl | beyond
    · rw [pathTarget_alloc, missing'] at old
      cases old
    · exact le_rfl
    · rw [Arena.size_alloc] at beyond
      omega
  · exact Or.inr ⟨not_or.mpr ⟨free₁, fun blocked => free₂ (lift.mp blocked)⟩, _, run₁,
      PathsUnified.same (grown₁.pathTarget grown.linked ends) ends₁⟩

theorem unify_of_linked (linked : g.Linked) (present : f < g.size) (path targetPath : FeaturePath)
    (vars : String → Option ℕ) :
    (g.Conflict f path.path targetPath.path ∧ ∃ e g',
      (doAction order depth ⟨path, .path targetPath, .equals⟩ f vars).run g = .error e g') ∨
    (¬ g.Conflict f path.path targetPath.path ∧ ∃ g',
      (doAction order depth ⟨path, .path targetPath, .equals⟩ f vars).run g = .ok () g' ∧
        PathsUnified g f path.path targetPath.path g') := by
  have unify : (doAction order depth ⟨path, .path targetPath, .equals⟩ f vars).run g =
      (doActionEquals order ⟨path, .path targetPath, .equals⟩ f (g.pathTarget f path.path)
        (g.pathTarget f targetPath.path) none).run g := by
    rw [doAction, EStateM.run_bind, run_pathTarget]
    simp only []
    rw [EStateM.run_bind, run_pathTarget]
    rfl
  rw [unify]
  cases leads : g.pathTarget f path.path with
  | some left =>
    cases leads' : g.pathTarget f targetPath.path with
    | some right =>
      have merge : (doActionEquals order ⟨path, .path targetPath, .equals⟩ f (some left)
          (some right) none).run g =
            (mergeWith order left right >>= fun _ => pure PUnit.unit).run g := rfl
      rw [merge, EStateM.run_bind]
      rcases run_mergeWith_paths order linked leads leads' with
        ⟨conflict, e, g', run⟩ | ⟨free, n, g', run, unified⟩
      · rw [run]
        exact Or.inl ⟨conflict, e, g', rfl⟩
      · rw [run]
        exact Or.inr ⟨free, g', rfl, unified⟩
    | none =>
      rcases run_makePath_paths linked present leads' leads with
        ⟨blocked, e, run⟩ | ⟨free, g', run, ends', ends⟩
      · exact Or.inl ⟨Or.inr (Or.inl blocked), e, g, run⟩
      · refine Or.inr ⟨?_, g', run, PathsUnified.same ends ends'⟩
        rintro (blocked | blocked | ⟨n, n', apart, -⟩)
        · exact not_blocked_of_pathTarget leads blocked
        · exact free blocked
        · exact absurd (apart.right_.symm.trans leads') (Option.some_ne_none n')
  | none =>
    cases leads' : g.pathTarget f targetPath.path with
    | some right =>
      rcases run_makePath_paths linked present leads leads' with
        ⟨blocked, e, run⟩ | ⟨free, g', run, ends, ends'⟩
      · exact Or.inl ⟨Or.inl blocked, e, g, run⟩
      · refine Or.inr ⟨?_, g', run, PathsUnified.same ends ends'⟩
        rintro (blocked | blocked | ⟨n, n', apart, -⟩)
        · exact free blocked
        · exact not_blocked_of_pathTarget leads' blocked
        · exact absurd (apart.left_.symm.trans leads) (Option.some_ne_none n)
    | none => exact run_makeLeft_paths linked present path targetPath leads leads'

/-- In every graph that calls make, an action of two paths fails exactly when they are in conflict,
and otherwise it unifies them. -/
theorem doAction_unify_madeBy (ops : List (HashOrder × FeatureOp)) (f : ℕ)
    (present : f < (madeBy ops).size) (path targetPath : FeaturePath) (vars : String → Option ℕ) :
    ((madeBy ops).Conflict f path.path targetPath.path ∧ ∃ e g',
      (doAction order depth ⟨path, .path targetPath, .equals⟩ f vars).run (madeBy ops) =
        .error e g') ∨
    (¬ (madeBy ops).Conflict f path.path targetPath.path ∧ ∃ g',
      (doAction order depth ⟨path, .path targetPath, .equals⟩ f vars).run (madeBy ops) =
        .ok () g' ∧ PathsUnified (madeBy ops) f path.path targetPath.path g') :=
  unify_of_linked order depth (FeatureOp.linked_madeBy ops) present path targetPath vars

/-- In a graph of one node, `<a b>` and `<a>` are unified. -/
theorem doAction_unify_new :
    ∃ path targetPath : FeaturePath, path.path = ["a", "b"] ∧ targetPath.path = ["a"] ∧
    0 < (madeBy [(.plain, .new)]).size ∧
    (((madeBy [(.plain, .new)]).Conflict 0 path.path targetPath.path ∧ ∃ e g',
      (doAction .plain 0 ⟨path, .path targetPath, .equals⟩ 0 fun _ => none).run
        (madeBy [(.plain, .new)]) = .error e g') ∨
    (¬ (madeBy [(.plain, .new)]).Conflict 0 path.path targetPath.path ∧ ∃ g',
      (doAction .plain 0 ⟨path, .path targetPath, .equals⟩ 0 fun _ => none).run
        (madeBy [(.plain, .new)]) = .ok () g' ∧
        PathsUnified (madeBy [(.plain, .new)]) 0 path.path targetPath.path g')) :=
  ⟨⟨["a", "b"], by simp [FeaturePath.IsStep, FeaturePath.isDelimiter]⟩,
    ⟨["a"], by simp [FeaturePath.IsStep, FeaturePath.isDelimiter]⟩, rfl, rfl, by decide,
    doAction_unify_madeBy .plain 0 [(.plain, .new)] 0 (by decide) _ _ _⟩

end FeatureAction

end ThinkingUnderstanding
