import ThinkingUnderstanding.Math.DepthFirst
import ThinkingUnderstanding.Relex.FeatureMerge

/-!
# Paths of features

A path is written as the names of its features in angle brackets, and is read from such a text. It
leads from a node to the node at its end, if there is one. `makePath` lets a path lead to a given
node where it leads nowhere: it keeps the part that is there, and adds one feature behind it, with
new nodes after it. A path that leads somewhere is left as it is, also when the target is forced.

## Main definitions

* `FeaturePath` — the names
* `FeaturePath.parse`, `FeaturePath.toString` — reading and writing
* `FeatureNode.pathTarget`, `FeatureNode.pathValue` — the end of a path
* `FeatureGraph.GrownAt` — one feature has been added, with new nodes behind it
* `FeatureNode.PathMade` — the ways in which making a path ends
* `SentenceAlgorithm.iteratorFromLeft` — the nodes to which an algorithm is applied

## Main results

* `FeaturePath.parse_toString` — what is written is read back
* `FeatureNode.pathMade_makePath_madeBy` — making a path in every graph that calls make
* `SentenceAlgorithm.iteratorFromLeft_madeBy` — the ends of all paths
-/

namespace ThinkingUnderstanding

open Math Semantics

/-! ### Reading and writing -/

namespace FeaturePath

/-- The delimiters of a `StringTokenizer`. -/
def isDelimiter (c : Char) : Bool := c ∈ [' ', '\t', '\n', '\r', Char.ofNat 12]

/-- A name in a path. -/
def IsStep (step : String) : Prop :=
  step.toList ≠ [] ∧ ∀ c ∈ step.toList, isDelimiter c = false ∧ c ≠ '>'

/-- The tokens of a text. -/
def tokens (text : List Char) : List String :=
  ((text.splitOnP isDelimiter).filter fun token => ¬ token.isEmpty).map String.ofList

end FeaturePath

/-- A path, which is made by reading a text, or by removing the last step of one. -/
@[ext]
structure FeaturePath where
  path : List String
  steps : ∀ step ∈ path, FeaturePath.IsStep step

namespace FeaturePath

/-- A token is a part of the text without delimiters. -/
theorem mem_of_mem_splitOnP {text token : List Char} (member : token ∈ text.splitOnP isDelimiter) :
    ∀ c ∈ token, c ∈ text ∧ isDelimiter c = false := by
  induction text generalizing token with
  | nil =>
    intro c here
    rw [List.splitOnP_nil, List.mem_singleton] at member
    rw [member] at here
    cases here
  | cons d text ih =>
    obtain ⟨first, rest, pieces⟩ :=
      List.exists_cons_of_ne_nil (List.splitOnP_ne_nil isDelimiter text)
    have later : ∀ token ∈ text.splitOnP isDelimiter, ∀ c ∈ token,
        c ∈ d :: text ∧ isDelimiter c = false := fun token member c here =>
      (ih member c here).imp_left (List.mem_cons_of_mem d)
    rw [pieces] at later
    rw [List.splitOnP_cons_eq_if_modifyHead] at member
    split_ifs at member with delimiter
    · rcases List.mem_cons.mp member with rfl | member
      · exact fun c here => absurd here List.not_mem_nil
      · exact later token (pieces ▸ member)
    · rw [pieces, List.modifyHead_cons] at member
      rcases List.mem_cons.mp member with rfl | member
      · intro c here
        rcases List.mem_cons.mp here with rfl | here
        · exact ⟨List.mem_cons_self, Bool.eq_false_of_not_eq_true delimiter⟩
        · exact later first List.mem_cons_self c here
      · exact later token (List.mem_cons_of_mem first member)

theorem isStep_of_mem_tokens {text : List Char} (closed : '>' ∉ text) :
    ∀ step ∈ tokens text, IsStep step := by
  intro step member
  obtain ⟨token, kept, rfl⟩ := List.mem_map.mp member
  obtain ⟨inside, full⟩ := List.mem_filter.mp kept
  refine ⟨?_, fun c here => ?_⟩
  · rw [String.toList_ofList]
    simpa using full
  · rw [String.toList_ofList] at here
    obtain ⟨within, bare⟩ := mem_of_mem_splitOnP inside c here
    exact ⟨bare, fun same => closed (same ▸ within)⟩

/-- What stands between the first character and the first closing bracket. -/
def between (str : List Char) : List Char := (str.take (str.idxOf '>')).drop 1

theorem notMem_between (str : List Char) : '>' ∉ between str := fun member => by
  have differs := List.false_of_mem_take_findIdx (List.mem_of_mem_drop member)
  simp at differs

/-- `new FeaturePath(str)`. -/
def parse (str : String) : Except FeatureError FeaturePath :=
  match str.toList.head? with
  | none => .error .indexOutOfBounds
  | some c =>
      if c ≠ '<' then .error (.runtime ("invalid feature path init string: " ++ str))
      else if '>' ∉ str.toList then
        .error (.runtime ("invalid feature path init string: " ++ str))
      else .ok ⟨tokens (between str.toList), isStep_of_mem_tokens (notMem_between _)⟩

/-- `FeaturePath.toString`. -/
def toString (p : FeaturePath) : String := "<" ++ " ".intercalate p.path ++ ">"

/-- `new FeaturePath(other)`. -/
def copy (other : FeaturePath) : Except FeatureError FeaturePath := parse other.toString

/-- `FeaturePath.lastStep`. -/
def lastStep (p : FeaturePath) : Except FeatureError String :=
  match p.path.getLast? with
  | none => .error .indexOutOfBounds
  | some step => .ok step

/-- `FeaturePath.removeLastStep`. -/
def removeLastStep (p : FeaturePath) : Except FeatureError FeaturePath :=
  if p.path.isEmpty then .error .indexOutOfBounds
  else .ok ⟨p.path.dropLast, fun step member => p.steps step (List.mem_of_mem_dropLast member)⟩

/-- Names that are written with blanks between them are the tokens of the text. -/
theorem tokens_intercalate (path : List String) (steps : ∀ step ∈ path, IsStep step) :
    tokens ([' '].intercalate (path.map String.toList)) = path := by
  induction path with
  | nil => rfl
  | cons step path ih =>
    rw [List.forall_mem_cons] at steps
    obtain ⟨⟨full, bare⟩, steps⟩ := steps
    have single : step.toList.splitOnP isDelimiter = [step.toList] :=
      List.splitOnP_eq_singleton fun c member => (bare c member).1
    cases path with
    | nil => simp [tokens, single, full, String.ofList_toList]
    | cons step' path =>
      have tail := ih steps
      rw [tokens] at tail
      have blank : isDelimiter ' ' = true := rfl
      rw [tokens, List.map_cons, List.map_cons, List.intercalate_cons_cons, List.append_assoc,
        List.singleton_append, List.splitOnP_append_cons _ _ blank, single, List.singleton_append,
        List.filter_cons_of_pos (by simpa using full), List.map_cons, String.ofList_toList,
        ← List.map_cons (f := String.toList), tail]

theorem notMem_intercalate (path : List String) (steps : ∀ step ∈ path, IsStep step) :
    '>' ∉ [' '].intercalate (path.map String.toList) := by
  induction path with
  | nil => exact List.not_mem_nil
  | cons step path ih =>
    rw [List.forall_mem_cons] at steps
    have here : '>' ∉ step.toList := fun member => (steps.1.2 _ member).2 rfl
    cases path with
    | nil => simpa using here
    | cons step' path =>
      rw [List.map_cons, List.map_cons, List.intercalate_cons_cons, List.mem_append,
        List.mem_append]
      rintro ((member | blank) | later)
      · exact here member
      · simp at blank
      · exact ih steps.2 later

/-- A path is read back from what has been written. -/
theorem parse_toString (p : FeaturePath) : parse p.toString = .ok p := by
  obtain ⟨path, steps⟩ := p
  have text : (toString ⟨path, steps⟩).toList =
      '<' :: ([' '].intercalate (path.map String.toList) ++ ['>']) := by
    simp [toString]
  have closed : '>' ∉ '<' :: [' '].intercalate (path.map String.toList) := by
    simpa using notMem_intercalate path steps
  have inner : between ('<' :: ([' '].intercalate (path.map String.toList) ++ ['>'])) =
      [' '].intercalate (path.map String.toList) := by
    rw [between, ← List.cons_append, List.idxOf_append_of_notMem closed, List.idxOf_cons_self,
      Nat.add_zero, List.take_left, List.drop_one, List.tail_cons]
  have names := tokens_intercalate path steps
  have head : (toString ⟨path, steps⟩).toList.head? = some '<' := by rw [text, List.head?_cons]
  have bracket : '>' ∈ (toString ⟨path, steps⟩).toList := by simp [text]
  rw [parse, head]
  simp only [ne_eq, not_true_eq_false, if_false]
  rw [if_neg (not_not.mpr bracket)]
  refine congrArg Except.ok (FeaturePath.ext ?_)
  change tokens (between (toString ⟨path, steps⟩).toList) = path
  rw [text, inner, names]

end FeaturePath

/-! ### The end of a path -/

namespace FeatureGraph

/-- The node at the end of a path. -/
def pathTarget (g : FeatureGraph) : ℕ → List String → Option ℕ
  | cur, [] => some cur
  | cur, name :: feats => (g.feature cur name).bind fun next => g.pathTarget next feats

end FeatureGraph

namespace FeatureNode

open FeatureGraph

/-- `FeatureNode.pathTarget`. -/
def pathTarget (cur : ℕ) : List String → FeatureProgram (Option ℕ)
  | [] => return some cur
  | name :: feats => do
      if (← isValued cur) then return none
      else
        match ← getFeature cur name with
        | none => return none
        | some next => pathTarget next feats

/-- `FeatureNode.getValue`. -/
def getValue (this : ℕ) : FeatureProgram (Option String) := do
  match ((← get).get this).content with
  | .keyed _ => throw (.runtime "non-valued FeatureNodes have no string value")
  | .valued value => return value

/-- `FeatureNode.featureValue`. -/
def featureValue (this : ℕ) (key : String) : FeatureProgram (Option String) := do
  match ← getFeature this key with
  | none => return none
  | some f => getValue f

/-- `FeatureNode.pathValue`. -/
def pathValue (this : ℕ) (path : FeaturePath) : FeatureProgram (Option String) := do
  match ← pathTarget this path.path with
  | none => return none
  | some target => getValue target

variable {g g' : FeatureGraph} {cur this target next p q : ℕ} {name : String}
  {feats path : List String} {kv_pairs : InsertionMap String ℕ}

/-- Following a path changes nothing. -/
theorem run_pathTarget (cur : ℕ) (path : List String) :
    (pathTarget cur path).run g = .ok (g.pathTarget cur path) g := by
  induction path generalizing cur with
  | nil => rfl
  | cons name feats ih =>
    have asked : (isValued cur).run g = .ok (g.kvPairs cur).isNone g := rfl
    rw [pathTarget, EStateM.run_bind, asked, FeatureGraph.pathTarget, feature]
    cases own : g.kvPairs cur with
    | none => rfl
    | some kv_pairs =>
      simp only [Option.isNone_some, Bool.false_eq_true, if_false, Option.bind_some]
      rw [EStateM.run_bind, run_getFeature own]
      cases kv_pairs.get? name with
      | none => rfl
      | some next => exact ih next

/-! ### Making a path -/

end FeatureNode

namespace FeatureGraph

/-- The node `p` has got a feature `name`, which it did not have. The other nodes are as they were.
The feature leads to the target or to a new node, and so do the features of new nodes. -/
structure GrownAt (g g' : FeatureGraph) (p : ℕ) (name : String) (target : ℕ) : Prop where
  linked : g'.Linked
  size : g.size ≤ g'.size
  added : ∃ kv_pairs n, g.kvPairs p = some kv_pairs ∧ kv_pairs.get? name = none ∧
    g'.kvPairs p = some (kv_pairs.insert name n) ∧ (n = target ∨ g.size ≤ n)
  others : ∀ q < g.size, q ≠ p → (g'.get q).content = (g.get q).content
  new : ∀ q, g.size ≤ q → ∃ kv_pairs, g'.kvPairs q = some kv_pairs ∧
    ∀ key n, kv_pairs.get? key = some n → n = target ∨ g.size ≤ n

variable {g g' : FeatureGraph} {cur this target next p q n : ℕ} {name key : String}
  {feats path : List String} {kv_pairs : InsertionMap String ℕ}

/-- Features lead from nodes to nodes. -/
theorem Linked.lt_size (linked : g.Linked) (leads : g.feature p key = some n) :
    p < g.size ∧ n < g.size := by
  constructor
  · by_contra beyond
    rw [Nat.not_lt] at beyond
    rw [feature_eq, g.get_of_size_le p beyond] at leads
    cases leads
  · by_contra beyond
    rw [Nat.not_lt] at beyond
    have parent := (linked p n).mpr ⟨key, leads⟩
    rw [g.get_of_size_le n beyond] at parent
    exact absurd parent (Finset.notMem_empty p)

/-- A graph that grows keeps its features. -/
theorem GrownAt.feature (grown : g.GrownAt g' p name target) (linked : g.Linked)
    (leads : g.feature q key = some n) : g'.feature q key = some n := by
  by_cases here : q = p
  · subst here
    obtain ⟨kv_pairs, m, own, fresh, own', -⟩ := grown.added
    obtain ⟨kv_pairs', own'', there⟩ := feature_eq_some_iff.mp leads
    obtain rfl : kv_pairs = kv_pairs' := Option.some.inj (own.symm.trans own'')
    refine feature_eq_some_iff.mpr ⟨_, own', ?_⟩
    rw [InsertionMap.get?_insert, if_neg, there]
    rintro rfl
    rw [fresh] at there
    cases there
  · rw [feature_eq, grown.others q (linked.lt_size leads).1 here, ← feature_eq, leads]

/-- A graph that grows keeps its paths. -/
theorem GrownAt.pathTarget (grown : g.GrownAt g' p name target) (linked : g.Linked)
    {path : List String} :
    ∀ {cur : ℕ}, g.pathTarget cur path = some n → g'.pathTarget cur path = some n := by
  induction path with
  | nil => exact fun leads => leads
  | cons name feats ih =>
    intro cur leads
    obtain ⟨next, step, rest⟩ := Option.bind_eq_some_iff.mp leads
    rw [FeatureGraph.pathTarget, grown.feature linked step]
    exact ih rest

theorem pathTarget_append {before after : List String} : g.pathTarget cur (before ++ after) =
    (g.pathTarget cur before).bind fun next => g.pathTarget next after := by
  induction before generalizing cur with
  | nil => rfl
  | cons name before ih =>
    rw [List.cons_append, FeatureGraph.pathTarget, FeatureGraph.pathTarget, Option.bind_assoc]
    exact congrArg _ (funext fun next => ih)

/-- A node that is not there yet reads as a node without features. -/
theorem kvPairs_of_size_le (beyond : g.size ≤ q) : g.kvPairs q = some InsertionMap.empty := by
  rw [kvPairs, g.get_of_size_le q beyond]
  rfl

theorem size_assign_of_fresh (present : this < g.size) (fresh : kv_pairs.get? name = none) :
    (g.assign this kv_pairs name (some target)).size = max g.size (target + 1) := by
  have bound : this + 1 ≤ max g.size (target + 1) := by omega
  rw [assign, fresh]
  exact Nat.max_eq_left bound

/-- A feature is set that was not there. -/
theorem grownAt_assign (linked : g.Linked) (present : this < g.size)
    (own : g.kvPairs this = some kv_pairs) (fresh : kv_pairs.get? name = none) :
    g.GrownAt (g.assign this kv_pairs name (some target)) this name target where
  linked := linked.assign own
  size := by
    rw [size_assign_of_fresh present fresh]
    exact Nat.le_max_left ..
  added := by
    refine ⟨kv_pairs, target, own, fresh, ?_, Or.inl rfl⟩
    rw [kvPairs_assign, if_pos rfl]
    rfl
  others q _ apart := by rw [content_assign, if_neg apart]
  new q beyond := by
    refine ⟨InsertionMap.empty, ?_, fun key n there => absurd there (Option.some_ne_none n).symm⟩
    rw [kvPairs_assign, if_neg (by omega), kvPairs_of_size_le beyond]

end FeatureGraph

namespace FeatureNode

open FeatureGraph

variable {g g' : FeatureGraph} {cur this target next p q : ℕ} {name : String}
  {feats path : List String} {kv_pairs : InsertionMap String ℕ}

/-- The ways in which `makePath` ends. -/
inductive PathMade (g : FeatureGraph) (this : ℕ) (path : List String) (target : ℕ) :
    EStateM.Result FeatureError FeatureGraph Unit → Prop
  /-- The path leads somewhere already. -/
  | there {n : ℕ} : g.pathTarget this path = some n → PathMade g this path target (.ok () g)
  /-- The path is there as far as the node `p`. -/
  | grown {g' : FeatureGraph} {before after : List String} {name : String} {p : ℕ} :
      path = before ++ name :: after → g.pathTarget this before = some p →
      g.GrownAt g' p name target → g'.pathTarget this path = some target →
      PathMade g this path target (.ok () g')
  /-- A node with a value is in the way. -/
  | blocked {e : FeatureError} {before after : List String} {name : String} {p : ℕ} :
      path = before ++ name :: after → g.pathTarget this before = some p → g.kvPairs p = none →
      PathMade g this path target (.error e g)

theorem kvPairs_alloc_size : kvPairs (g.alloc {}) g.size = some InsertionMap.empty := by
  rw [kvPairs, Arena.get_alloc_size]

theorem get_alloc (p : ℕ) : (g.alloc {}).get p = g.get p := by
  by_cases new : p = g.size
  · rw [new, Arena.get_alloc_size, g.get_of_size_le _ le_rfl]
    rfl
  · exact g.get_alloc_of_ne new _

theorem kvPairs_alloc : kvPairs (g.alloc {}) p = g.kvPairs p := by
  rw [kvPairs, get_alloc, ← kvPairs]

/-- The steps that are not there are made. -/
theorem exists_run_makePath (linked : g.Linked) (present : cur < g.size)
    (own : g.kvPairs cur = some kv_pairs) (fresh : kv_pairs.get? name = none) (feats : List String)
    (target : ℕ) (forceTarget : Bool) :
    ∃ g', (makePath cur (name :: feats) target forceTarget).run g = .ok () g' ∧
      g.GrownAt g' cur name target ∧ g'.pathTarget cur (name :: feats) = some target := by
  induction feats generalizing g cur name kv_pairs with
  | nil =>
    refine ⟨g.assign cur kv_pairs name (some target), ?_,
      grownAt_assign linked present own fresh, ?_⟩
    · rw [makePath, EStateM.run_bind, run_getFeature own, fresh]
      simp only [List.isEmpty_nil, if_true]
      rw [EStateM.run_bind, run_getFeature own, fresh]
      simp only [Option.isSome_none, Bool.and_false, Bool.false_eq_true, if_false]
      exact run_setFeature own name (some target)
    · rw [FeatureGraph.pathTarget, feature_assign own, if_pos ⟨rfl, rfl⟩]
      rfl
  | cons name' feats ih =>
    -- a new node, to which the feature leads
    have own₁ : kvPairs (g.alloc {}) cur = some kv_pairs := by rw [kvPairs_alloc, own]
    have apart : g.size ≠ cur := by omega
    have present₁ : cur < Arena.size (g.alloc {}) := by
      rw [Arena.size_alloc]
      omega
    have step : GrownAt (g.alloc {}) (assign (g.alloc {}) cur kv_pairs name (some g.size)) cur
        name g.size := grownAt_assign linked.alloc present₁ own₁ fresh
    have size : (assign (g.alloc {}) cur kv_pairs name (some g.size)).size = g.size + 1 := by
      rw [size_assign_of_fresh present₁ fresh, Arena.size_alloc, Nat.max_self]
    have empty : (assign (g.alloc {}) cur kv_pairs name (some g.size)).kvPairs g.size =
        some InsertionMap.empty := by
      rw [kvPairs_assign, if_neg apart, kvPairs_alloc_size]
    have bare : (InsertionMap.empty : InsertionMap String ℕ).get? name' = none := rfl
    obtain ⟨g', run, grown, leads⟩ := ih step.linked (by omega) empty bare
    have feature' : g'.feature cur name = some g.size :=
      grown.feature step.linked (by rw [feature_assign own₁, if_pos ⟨rfl, rfl⟩])
    have kept : g'.kvPairs cur = some (kv_pairs.insert name g.size) := by
      have same := grown.others cur (by omega) (fun same => apart same.symm)
      rw [content_assign, if_pos rfl] at same
      exact kvPairs_eq_some_iff.mpr same
    have larger := grown.size
    refine ⟨g', ?_, ⟨grown.linked, by omega,
      ⟨kv_pairs, g.size, own, fresh, kept, Or.inr le_rfl⟩, ?_, ?_⟩, ?_⟩
    · rw [makePath, EStateM.run_bind, run_getFeature own, fresh]
      simp only [List.isEmpty_cons, Bool.false_eq_true, if_false]
      rw [EStateM.run_bind]
      change ((do
        setFeature cur name (some g.size)
        makePath g.size (name' :: feats) target forceTarget : FeatureProgram Unit).run
          (g.alloc {})) = _
      rw [EStateM.run_bind, run_setFeature own₁]
      exact run
    · intro q below other
      have same := grown.others q (by omega) (by omega)
      rw [same, content_assign, if_neg other, get_alloc]
    · intro q beyond
      by_cases here : q = g.size
      · subst here
        obtain ⟨kv, n, own₂, -, own', new⟩ := grown.added
        obtain rfl : kv = InsertionMap.empty := Option.some.inj (own₂.symm.trans empty)
        refine ⟨_, own', fun key m there => ?_⟩
        rw [InsertionMap.get?_insert] at there
        split_ifs at there
        · obtain rfl : n = m := Option.some.inj there
          exact new.imp_right (by omega)
        · cases there
      · obtain ⟨kv, own', new⟩ := grown.new q (by omega)
        exact ⟨kv, own', fun key m there => (new key m there).imp_right (by omega)⟩
    · rw [FeatureGraph.pathTarget, feature']
      exact leads

theorem pathMade_makePath (linked : g.Linked) (present : this < g.size) (path : List String)
    (target : ℕ) (forceTarget : Bool) :
    PathMade g this path target ((makePath this path target forceTarget).run g) := by
  induction path generalizing this with
  | nil => exact PathMade.there rfl
  | cons name feats ih =>
    cases own : g.kvPairs this with
    | none =>
      have stopped : ∃ e,
          (makePath this (name :: feats) target forceTarget).run g = .error e g := by
        rw [makePath, EStateM.run_bind, getFeature, EStateM.run_bind]
        simp only [EStateM.run_get, own]
        exact ⟨_, rfl⟩
      obtain ⟨e, run⟩ := stopped
      rw [run]
      exact PathMade.blocked (List.nil_append _).symm rfl own
    | some kv_pairs =>
      cases found : kv_pairs.get? name with
      | none =>
        obtain ⟨g', run, grown, leads⟩ :=
          exists_run_makePath linked present own found feats target forceTarget
        rw [run]
        exact PathMade.grown (List.nil_append _).symm rfl grown leads
      | some next =>
        have leads : g.feature this name = some next := feature_eq_some_iff.mpr ⟨_, own, found⟩
        have behind : ∀ path, g.pathTarget this (name :: path) = g.pathTarget next path :=
          fun path => by rw [FeatureGraph.pathTarget, leads, Option.bind_some]
        have run : (makePath this (name :: feats) target forceTarget).run g =
            (makePath next feats target forceTarget).run g := by
          rw [makePath, EStateM.run_bind, run_getFeature own, found]
        rw [run]
        have made := ih (linked.lt_size leads).2
        generalize (makePath next feats target forceTarget).run g = result at made ⊢
        cases made with
        | there ends => exact PathMade.there ((behind feats).trans ends)
        | grown split start grown ends =>
          refine PathMade.grown (congrArg (name :: ·) split) ((behind _).trans start) grown ?_
          rw [FeatureGraph.pathTarget, grown.feature linked leads]
          exact ends
        | blocked split start valued =>
          exact PathMade.blocked (congrArg (name :: ·) split) ((behind _).trans start) valued

/-- In every graph that calls make, `makePath` ends in one of these ways. -/
theorem pathMade_makePath_madeBy (ops : List (HashOrder × FeatureOp)) {this : ℕ}
    (present : this < (madeBy ops).size) (path : List String) (target : ℕ) (forceTarget : Bool) :
    PathMade (madeBy ops) this path target
      ((makePath this path target forceTarget).run (madeBy ops)) :=
  pathMade_makePath (FeatureOp.linked_madeBy ops) present path target forceTarget

theorem pathMade_makePath_new :
    0 < (madeBy [(.plain, .new)]).size ∧ PathMade (madeBy [(.plain, .new)]) 0 ["phr-head"] 0
      ((makePath 0 ["phr-head"] 0 true).run (madeBy [(.plain, .new)])) :=
  ⟨by decide, pathMade_makePath_madeBy [(.plain, .new)] (by decide) ["phr-head"] 0 true⟩

end FeatureNode

/-! ### All nodes of a sentence -/

namespace SentenceAlgorithm

open FeatureGraph

/-- The nodes to which the features of a node lead. -/
def successors (order : HashOrder) (g : FeatureGraph) (f : ℕ) : List ℕ :=
  match g.kvPairs f with
  | none => []
  | some kv_pairs => (order.names kv_pairs.keys).filterMap kv_pairs.get?

/-- `SentenceAlgorithm.iteratorFromLeft`, whose recursion is not deeper than there are nodes. -/
def iteratorFromLeft (order : HashOrder) (g : FeatureGraph) (left : ℕ) : List ℕ :=
  DepthFirst.visit (successors order g) id (g.size + 1) [] left

variable {order : HashOrder} {g : FeatureGraph} {f n left : ℕ}

theorem mem_successors : n ∈ successors order g f ↔ ∃ name, g.feature f name = some n := by
  rw [successors]
  cases own : g.kvPairs f with
  | none =>
    refine iff_of_false List.not_mem_nil ?_
    rintro ⟨name, leads⟩
    rw [feature, own] at leads
    cases leads
  | some kv_pairs =>
    have named : ∀ name, name ∈ order.names kv_pairs.keys ↔ name ∈ kv_pairs.keys :=
      fun name => (order.names_perm kv_pairs.keys).mem_iff
    simp only [List.mem_filterMap, named, feature, own, Option.bind_some]
    constructor
    · rintro ⟨name, -, leads⟩
      exact ⟨name, leads⟩
    · rintro ⟨name, leads⟩
      exact ⟨name, InsertionMap.mem_keys_iff.mpr ⟨n, leads⟩, leads⟩

/-- What is reached along features is at the end of a path. -/
theorem reaches_iff : DepthFirst.Reaches (successors order g) id left n ↔
    ∃ path, g.pathTarget left path = some n := by
  constructor
  · intro reaches
    induction reaches with
    | refl => exact ⟨[], rfl⟩
    | tail _ edge ih =>
      obtain ⟨path, leads⟩ := ih
      obtain ⟨next, member, same⟩ := edge
      obtain rfl : next = _ := same
      obtain ⟨name, step⟩ := mem_successors.mp member
      refine ⟨path ++ [name], ?_⟩
      rw [pathTarget_append, leads, Option.bind_some, FeatureGraph.pathTarget, step]
      rfl
  · rintro ⟨path, leads⟩
    induction path generalizing left with
    | nil =>
      obtain rfl : left = n := Option.some.inj leads
      exact Relation.ReflTransGen.refl
    | cons name feats ih =>
      obtain ⟨next, step, rest⟩ := Option.bind_eq_some_iff.mp leads
      exact Relation.ReflTransGen.head ⟨next, mem_successors.mpr ⟨name, step⟩, rfl⟩ (ih rest)

/-- In every graph that calls make, the iterator returns the ends of all paths, each once. -/
theorem iteratorFromLeft_madeBy (order : HashOrder) (ops : List (HashOrder × FeatureOp))
    {left : ℕ} (present : left < (madeBy ops).size) :
    (iteratorFromLeft order (madeBy ops) left).Nodup ∧
      ∀ n, n ∈ iteratorFromLeft order (madeBy ops) left ↔
        ∃ path, (madeBy ops).pathTarget left path = some n := by
  have linked := FeatureOp.linked_madeBy ops
  generalize madeBy ops = g at linked present ⊢
  have closed : DepthFirst.Closed (successors order g) id (List.range g.size) := by
    intro v _ e edge
    obtain ⟨name, leads⟩ := mem_successors.mp edge
    exact List.mem_range.mpr (linked.lt_size leads).2
  constructor
  · have nodup : ((iteratorFromLeft order g left).map id).Nodup :=
      DepthFirst.nodup_visit (g.size + 1) left List.nodup_nil
    rwa [List.map_id] at nodup
  · intro n
    have visited : n ∈ (iteratorFromLeft order g left).map id ↔
        DepthFirst.Reaches (successors order g) id left n :=
      DepthFirst.mem_visit_nil_iff closed (List.mem_range.mpr present) (by simp)
    rw [List.map_id] at visited
    exact visited.trans reaches_iff

/-- Two words that lead to each other, the second one with a feature of its own, and a node that
neither of them leads to. -/
def twoWords : List (HashOrder × FeatureOp) :=
  [(.plain, .new), (.plain, .new), (.plain, .set 0 "NEXT" (some 1)),
    (.plain, .set 1 "PREV" (some 0)), (.plain, .add 1 "ref"), (.plain, .new)]

/-- The words and the feature are returned, and the cycle is not followed again. -/
theorem iteratorFromLeft_twoWords :
    (madeBy twoWords).pathTarget 0 ["NEXT", "PREV"] = some 0 ∧
      iteratorFromLeft .plain (madeBy twoWords) 0 = [0, 1, 2] ∧
      (iteratorFromLeft .plain (madeBy twoWords) 0).Nodup ∧
      ∀ n, n ∈ iteratorFromLeft .plain (madeBy twoWords) 0 ↔
        ∃ path, (madeBy twoWords).pathTarget 0 path = some n :=
  ⟨by decide +kernel, by decide +kernel,
    iteratorFromLeft_madeBy .plain twoWords (by decide +kernel)⟩

end SentenceAlgorithm

end ThinkingUnderstanding
