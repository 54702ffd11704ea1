import ThinkingUnderstanding.Relex.FeatureGraph

/-!
# Parents and features

The parents of a node are exactly the nodes that have a feature leading to it. Setting a feature
keeps this, also when another feature still leads to the old target, or when a node is set as its
own feature; and so do all methods, whether they end normally or with an exception.

## Main definitions

* `FeatureGraph.Linked` — the parents are the nodes from which features lead

## Main results

* `FeatureGraph.Linked.assign` — setting a feature
* `FeatureOp.linked_perform` — every method
* `FeatureOp.linked_madeBy` — all graphs that are reached
-/

namespace ThinkingUnderstanding

open Math Semantics

namespace FeatureGraph

/-- The parents of every node are the nodes that have features leading to it. -/
def Linked (g : FeatureGraph) : Prop :=
  ∀ p n, p ∈ (g.get n).parents ↔ ∃ key, g.feature p key = some n

variable {g : FeatureGraph} {n p q this other : ℕ} {key key' : String} {target : Option ℕ}
  {kv_pairs : InsertionMap String ℕ}

/-! ### What a change of one field leaves -/

@[simp] theorem kvPairs_putKeyed :
    (g.putKeyed n kv_pairs).kvPairs p = if p = n then some kv_pairs else g.kvPairs p := by
  by_cases same : p = n
  · subst same
    simp [kvPairs, putKeyed]
  · simp [kvPairs, putKeyed, Arena.get_modify_of_ne _ same, same]

@[simp] theorem parents_putKeyed :
    ((g.putKeyed n kv_pairs).get p).parents = (g.get p).parents := by
  by_cases same : p = n
  · subst same
    simp [putKeyed]
  · simp [putKeyed, Arena.get_modify_of_ne _ same]

@[simp] theorem kvPairs_addParent : (g.addParent n q).kvPairs p = g.kvPairs p := by
  by_cases same : p = n
  · subst same
    simp [kvPairs, addParent]
  · simp [kvPairs, addParent, Arena.get_modify_of_ne _ same]

@[simp] theorem mem_parents_addParent :
    q ∈ ((g.addParent n this).get p).parents ↔ (p = n ∧ q = this) ∨ q ∈ (g.get p).parents := by
  by_cases same : p = n
  · subst same
    simp [addParent]
  · simp [addParent, Arena.get_modify_of_ne _ same, same]

@[simp] theorem kvPairs_removeParent : (g.removeParent n q).kvPairs p = g.kvPairs p := by
  by_cases same : p = n
  · subst same
    simp [kvPairs, removeParent]
  · simp [kvPairs, removeParent, Arena.get_modify_of_ne _ same]

@[simp] theorem mem_parents_removeParent : q ∈ ((g.removeParent n this).get p).parents ↔
    ¬ (p = n ∧ q = this) ∧ q ∈ (g.get p).parents := by
  by_cases same : p = n
  · subst same
    simp [removeParent]
  · simp [removeParent, Arena.get_modify_of_ne _ same, same]

theorem feature_eq_some_iff : g.feature n key = some other ↔
    ∃ kv_pairs, g.kvPairs n = some kv_pairs ∧ kv_pairs.get? key = some other :=
  Option.bind_eq_some_iff

/-! ### Setting a feature -/

@[simp] theorem kvPairs_addTarget : (g.addTarget this target).kvPairs p = g.kvPairs p := by
  cases target with
  | none => rfl
  | some target => exact kvPairs_addParent

@[simp] theorem mem_parents_addTarget : q ∈ ((g.addTarget this target).get p).parents ↔
    (target = some p ∧ q = this) ∨ q ∈ (g.get p).parents := by
  cases target with
  | none => simp [addTarget]
  | some target => simp [addTarget, eq_comm]

@[simp] theorem kvPairs_dropTarget :
    (g.dropTarget this kv_pairs target).kvPairs p = g.kvPairs p := by
  cases target with
  | none => rfl
  | some target =>
    rw [dropTarget]
    split_ifs
    · rfl
    · exact kvPairs_removeParent

@[simp] theorem mem_parents_dropTarget : q ∈ ((g.dropTarget this kv_pairs target).get p).parents ↔
    ¬ (target = some p ∧ p ∉ kv_pairs.values ∧ q = this) ∧ q ∈ (g.get p).parents := by
  cases target with
  | none => simp [dropTarget]
  | some target =>
    rw [dropTarget]
    split_ifs with leads
    · refine (and_iff_right_of_imp fun _ => ?_).symm
      rintro ⟨same, no, -⟩
      exact no (Option.some.inj same ▸ leads)
    · rw [mem_parents_removeParent]
      refine and_congr_left fun _ => not_congr ?_
      constructor
      · rintro ⟨rfl, own⟩
        exact ⟨rfl, leads, own⟩
      · rintro ⟨same, -, own⟩
        exact ⟨(Option.some.inj same).symm, own⟩

theorem get?_assigned : (assigned kv_pairs key target).get? key' =
    if key' = key then target else kv_pairs.get? key' := by
  cases target with
  | none => exact InsertionMap.get?_filter_ne
  | some target => exact InsertionMap.get?_insert ..

theorem kvPairs_assign : (g.assign this kv_pairs key target).kvPairs p =
    if p = this then some (assigned kv_pairs key target) else g.kvPairs p := by
  simp [assign]

/-- The features after one has been set. -/
theorem feature_assign (own : g.kvPairs this = some kv_pairs) :
    (g.assign this kv_pairs key target).feature p key' =
      if p = this ∧ key' = key then target else g.feature p key' := by
  rw [feature, feature, kvPairs_assign]
  by_cases same : p = this
  · subst same
    simp [get?_assigned, own]
  · simp [same]

theorem mem_parents_assign : q ∈ ((g.assign this kv_pairs key target).get n).parents ↔
    ¬ (kv_pairs.get? key = some n ∧ n ∉ (assigned kv_pairs key target).values ∧ q = this) ∧
      ((target = some n ∧ q = this) ∨ q ∈ (g.get n).parents) := by
  simp [assign]

/-- Setting a feature keeps the parents right. -/
theorem Linked.assign (linked : g.Linked) (own : g.kvPairs this = some kv_pairs) :
    (g.assign this kv_pairs key target).Linked := by
  intro q n
  rw [mem_parents_assign, linked q n]
  simp only [feature_assign own]
  by_cases same : q = this
  · subst same
    have leads : ∀ k, g.feature q k = kv_pairs.get? k := fun k => by rw [feature, own]; rfl
    simp only [leads, and_true, true_and, InsertionMap.mem_values_iff, get?_assigned]
    constructor
    · rintro ⟨kept, new | ⟨k, old⟩⟩
      · exact ⟨key, by rw [if_pos rfl, new]⟩
      · by_cases here : k = key
        -- another feature leads to the old target
        · by_contra none_
          exact kept ⟨here ▸ old, none_⟩
        · exact ⟨k, by rw [if_neg here, old]⟩
    · rintro ⟨k, now⟩
      refine ⟨fun both => both.2 ⟨k, now⟩, ?_⟩
      by_cases here : k = key
      · exact Or.inl (by rwa [if_pos here] at now)
      · exact Or.inr ⟨k, by rwa [if_neg here] at now⟩
  · simp [same]

/-! ### Other changes of a node -/

theorem Linked.of_same {g' : FeatureGraph} (linked : g.Linked)
    (parents : ∀ n, (g'.get n).parents = (g.get n).parents)
    (features : ∀ n key, g'.feature n key = g.feature n key) : g'.Linked := by
  intro p n
  rw [parents, linked p n]
  simp only [features]

theorem Linked.alloc (linked : g.Linked) : Linked (g.alloc {}) := by
  have same : ∀ n, (g.alloc {}).get n = g.get n := by
    intro n
    by_cases new : n = g.size
    · rw [new, Arena.get_alloc_size, g.get_of_size_le _ le_rfl]
      rfl
    · exact g.get_alloc_of_ne new _
  refine linked.of_same (fun n => by rw [same]) fun n key => ?_
  rw [feature, feature, kvPairs, kvPairs, same]

/-- A node without features gets a value. -/
theorem Linked.putValue {value : Option String} (linked : g.Linked)
    (empty : ∀ key, g.feature this key = none) : (g.putValue this value).Linked := by
  refine linked.of_same (fun n => ?_) fun n key => ?_
  · by_cases same : n = this
    · subst same
      simp [FeatureGraph.putValue]
    · simp [FeatureGraph.putValue, Arena.get_modify_of_ne _ same]
  · by_cases same : n = this
    · subst same
      rw [empty]
      simp [feature, kvPairs, FeatureGraph.putValue]
    · simp [feature, kvPairs, FeatureGraph.putValue, Arena.get_modify_of_ne _ same]

/-- A node with a value gets an empty map. -/
theorem Linked.putEmpty (linked : g.Linked) (empty : ∀ key, g.feature this key = none) :
    (g.putKeyed this InsertionMap.empty).Linked := by
  refine linked.of_same (fun n => parents_putKeyed) fun n key => ?_
  rw [feature, kvPairs_putKeyed]
  split_ifs with same
  · rw [same, empty]
    rfl
  · rfl

end FeatureGraph

namespace FeatureNode

open FeatureGraph

variable (order : HashOrder)

theorem maintains_isValued (this : ℕ) : Maintains Linked (isValued this) fun _ => True :=
  maintains_get_bind fun _ _ => maintains_pure trivial

theorem maintains_isEmpty (this : ℕ) : Maintains Linked (isEmpty this) fun _ => True := by
  refine maintains_get_bind fun g _ => ?_
  cases (g.get this).content <;> exact maintains_pure trivial

theorem maintains_getFeature (this : ℕ) (key : String) :
    Maintains Linked (getFeature this key) fun _ => True := by
  refine maintains_get_bind fun g _ => ?_
  cases g.kvPairs this with
  | none => exact maintains_throw _
  | some kv_pairs => exact maintains_pure trivial

theorem maintains_getFeatureNames (this : ℕ) :
    Maintains Linked (getFeatureNames this) fun _ => True := by
  refine maintains_get_bind fun g _ => ?_
  cases g.kvPairs this with
  | none => exact maintains_throw _
  | some kv_pairs => exact maintains_pure trivial

theorem maintains_setFeature (this : ℕ) (key : String) (target : Option ℕ) :
    Maintains Linked (setFeature this key target) fun _ => True := by
  intro g linked
  refine ⟨?_, fun _ _ _ => trivial⟩
  rw [setFeature, EStateM.run_bind]
  cases own : g.kvPairs this with
  | none =>
    simp only [EStateM.run_get, own]
    exact linked
  | some kv_pairs =>
    simp only [EStateM.run_get, own]
    exact linked.assign own

theorem maintains_newNode : Maintains Linked newNode fun _ => True :=
  fun _ linked => ⟨linked.alloc, fun _ _ _ => trivial⟩

theorem feature_of_valued {g : FeatureGraph} {this : ℕ} (valued : g.kvPairs this = none)
    (key : String) : g.feature this key = none := by
  rw [feature, valued]
  rfl

theorem feature_of_size_eq_zero {g : FeatureGraph} {this : ℕ} {kv_pairs : InsertionMap String ℕ}
    (own : g.kvPairs this = some kv_pairs) (empty : ¬ kv_pairs.size > 0) (key : String) :
    g.feature this key = none := by
  have none_ : kv_pairs.entries = [] := List.eq_nil_of_length_eq_zero (by
    rw [gt_iff_lt, Nat.not_lt, Nat.le_zero] at empty
    exact empty)
  rw [feature, own]
  simp [InsertionMap.get?, none_]

theorem maintains_setValue (this : ℕ) (value : Option String) :
    Maintains Linked (setValue this value) fun _ => True := by
  intro g linked
  refine ⟨?_, fun _ _ _ => trivial⟩
  have asked : (isValued this).run g = .ok (g.kvPairs this).isNone g := rfl
  simp only [setValue, EStateM.run_bind, asked]
  cases own : g.kvPairs this with
  | some kv_pairs => exact linked
  | none =>
    cases value with
    | none => exact linked
    | some text => exact linked.putValue (feature_of_valued own)

theorem maintains_forceValue (this : ℕ) (val : Option String) :
    Maintains Linked (forceValue this val) fun _ => True := by
  intro g linked
  refine ⟨?_, fun _ _ _ => trivial⟩
  rw [forceValue, EStateM.run_bind]
  cases own : g.kvPairs this with
  | none =>
    simp only [EStateM.run_get, own]
    exact (maintains_setValue this val).keeps linked
  | some kv_pairs =>
    simp only [EStateM.run_get, own]
    split_ifs with full
    · exact linked
    · exact (maintains_setValue this val).keeps
        (linked.putValue (feature_of_size_eq_zero own full))

theorem maintains_forceFeatures (this : ℕ) :
    Maintains Linked (forceFeatures this) fun _ => True := by
  intro g linked
  refine ⟨?_, fun _ _ _ => trivial⟩
  rw [forceFeatures, EStateM.run_bind]
  simp only [EStateM.run_get]
  cases content : (g.get this).content with
  | keyed kv_pairs => exact linked
  | valued value =>
    cases value with
    | some text => exact linked
    | none => exact linked.putEmpty (feature_of_valued (by rw [kvPairs, content]))

theorem maintains_newValue (str : String) : Maintains Linked (newValue str) fun _ => True :=
  maintains_newNode.bind fun n _ =>
    (maintains_forceValue n (some str)).bind fun _ _ => maintains_pure trivial

theorem maintains_add (this : ℕ) (key : String) :
    Maintains Linked (add this key) fun _ => True := by
  refine (maintains_isValued this).bind fun valued _ => ?_
  cases valued
  · exact maintains_newNode.bind fun f _ =>
      (maintains_setFeature this key (some f)).bind fun _ _ => maintains_pure trivial
  · exact maintains_throw _

theorem maintains_addValue (this : ℕ) (key : String) (value : Option String) :
    Maintains Linked (addValue this key value) fun _ => True :=
  (maintains_add this key).bind fun fn _ => maintains_forceValue fn value

theorem maintains_getOrMake (this : ℕ) (key : String) :
    Maintains Linked (getOrMake this key) fun _ => True := by
  refine (maintains_getFeature this key).bind fun ret _ => ?_
  cases ret with
  | some ret => exact maintains_pure trivial
  | none => exact maintains_newNode.bind fun ret _ =>
      (maintains_setFeature this key (some ret)).bind fun _ _ => maintains_pure trivial

theorem maintains_substitute (this oldF newF : ℕ) :
    Maintains Linked (substitute order this oldF newF) fun _ => True := by
  rw [substitute]
  split_ifs
  · exact maintains_pure trivial
  · refine (maintains_getFeatureNames this).bind fun names _ => Maintains.forM _ fun name _ => ?_
    refine (maintains_getFeature this name).bind fun target _ => ?_
    cases target with
    | none => exact maintains_throw _
    | some target =>
      dsimp only
      split_ifs
      · exact maintains_setFeature this name (some newF)
      · exact maintains_pure trivial

theorem maintains_replaceSelfWith (this other : ℕ) :
    Maintains Linked (replaceSelfWith order this other) fun _ => True := by
  rw [replaceSelfWith]
  split_ifs
  · exact maintains_pure trivial
  · refine maintains_get_bind fun g _ => ?_
    refine (Maintains.forM _ fun p _ => maintains_substitute order p this other).bind fun _ _ => ?_
    refine maintains_get_bind fun g' _ => ?_
    split_ifs
    · exact maintains_pure trivial
    · exact maintains_throw _

theorem maintains_inconsistent (fName : String) (thisf otherf : Option ℕ) :
    Maintains Linked (inconsistent fName thisf otherf) fun _ => True := by
  cases thisf with
  | none => exact maintains_throw _
  | some thisf =>
    cases otherf with
    | none => exact maintains_throw _
    | some otherf =>
      refine (maintains_isValued thisf).bind fun _ _ =>
        (maintains_isValued otherf).bind fun _ _ => ?_
      split_ifs
      · exact maintains_throw _
      · exact maintains_throw _

theorem maintains_mergeWith (this other : ℕ) :
    Maintains Linked (mergeWith order this other) fun _ => True := by
  rw [mergeWith]
  split_ifs
  · exact maintains_pure trivial
  · refine (maintains_isEmpty other).bind fun empty _ => ?_
    cases empty
    · refine (maintains_isEmpty this).bind fun empty _ => ?_
      cases empty
      · refine maintains_get_bind fun g _ => maintains_get_bind fun g' _ => ?_
        cases (g.get this).content with
        | valued value =>
          cases (g'.get other).content with
          | valued value' =>
            dsimp only
            split_ifs
            · exact maintains_pure trivial
            · exact maintains_throw _
          | keyed _ => exact maintains_throw _
        | keyed _ =>
          cases (g'.get other).content with
          | valued value' => exact maintains_throw _
          | keyed kv_pairs =>
            refine (Maintains.forM _ fun fName _ => ?_).bind fun _ _ => maintains_pure trivial
            refine (maintains_getFeature other fName).bind fun otherf _ => ?_
            refine (maintains_getFeature this fName).bind fun thisf _ => ?_
            split_ifs
            · exact maintains_pure trivial
            · exact maintains_inconsistent fName thisf otherf
      · exact (maintains_replaceSelfWith order this other).bind fun _ _ => maintains_pure trivial
    · exact (maintains_replaceSelfWith order other this).bind fun _ _ => maintains_pure trivial

theorem maintains_copyInto (this other : ℕ) :
    Maintains Linked (copyInto order this other) fun _ => True := by
  rw [copyInto]
  split_ifs
  · exact maintains_pure trivial
  · refine (maintains_isValued this).bind fun valued _ =>
      (maintains_isValued other).bind fun valued' _ => ?_
    cases valued with
    | true =>
      cases valued' with
      | true => exact maintains_pure trivial
      | false => exact maintains_throw _
    | false =>
      cases valued' with
      | true => exact maintains_throw _
      | false =>
        refine (maintains_getFeatureNames other).bind fun names _ => ?_
        refine (Maintains.forM _ fun fName _ => ?_).bind fun _ _ => maintains_pure trivial
        exact (maintains_getFeature other fName).bind fun target _ =>
          maintains_setFeature this fName target

theorem maintains_makePath (cur : ℕ) (path : List String) (target : ℕ) (forceTarget : Bool) :
    Maintains Linked (makePath cur path target forceTarget) fun _ => True := by
  induction path generalizing cur with
  | nil => exact maintains_pure trivial
  | cons name feats ih =>
    rw [makePath]
    refine (maintains_getFeature cur name).bind fun next _ => ?_
    cases next with
    | some next => exact ih next
    | none =>
      dsimp only
      split_ifs
      · refine (maintains_getFeature cur name).bind fun there _ => ?_
        split_ifs
        · exact maintains_throw _
        · exact maintains_setFeature cur name (some target)
      · exact maintains_newNode.bind fun next _ =>
          (maintains_setFeature cur name (some next)).bind fun _ _ => ih next

end FeatureNode

/-! ### Sequences of calls -/

namespace FeatureOp

open FeatureGraph FeatureNode

theorem linked_empty : Linked Arena.empty := by
  intro p n
  simp [Arena.empty, feature, kvPairs, default, InsertionMap.get?, instInhabitedFeatureObject]

theorem linked_discard {α : Type} {p : FeatureProgram α} {g : FeatureGraph}
    (maintains : Maintains Linked p fun _ => True) (linked : g.Linked) :
    Linked (finalState ((discard p).run g)) := by
  rw [finalState_discard]
  exact maintains.keeps linked

/-- Every method keeps the parents right, however it ends. -/
theorem linked_perform (order : HashOrder) (g : FeatureGraph) (op : FeatureOp)
    (linked : g.Linked) : Linked (finalState ((perform order op).run g)) := by
  cases op with
  | new => exact linked_discard maintains_newNode linked
  | newValue str => exact linked_discard (maintains_newValue str) linked
  | forceFeatures this => exact (maintains_forceFeatures this).keeps linked
  | forceValue this val => exact (maintains_forceValue this val).keeps linked
  | setValue this value => exact (maintains_setValue this value).keeps linked
  | add this key => exact linked_discard (maintains_add this key) linked
  | addValue this key value => exact (maintains_addValue this key value).keeps linked
  | substitute this oldF newF =>
    exact (maintains_substitute order this oldF newF).keeps linked
  | mergeWith this other => exact linked_discard (maintains_mergeWith order this other) linked
  | copyInto this other => exact linked_discard (maintains_copyInto order this other) linked
  | replaceSelfWith this other => exact (maintains_replaceSelfWith order this other).keeps linked
  | set this key target => exact (maintains_setFeature this key target).keeps linked
  | getOrMake this key => exact linked_discard (maintains_getOrMake this key) linked
  | makePath this path target forceTarget =>
    exact (maintains_makePath this path target forceTarget).keeps linked

/-- In every graph that is made by calls, the parents are the nodes with features. The orders may
be others at every call. -/
theorem linked_madeBy (ops : List (HashOrder × FeatureOp)) : Linked (madeBy ops) :=
  invariant_runAll (fun g op linked => linked_perform op.1 g op.2 linked) ops linked_empty

end FeatureOp

end ThinkingUnderstanding
