import ThinkingUnderstanding.Relex.FeatureLinks

/-!
# Replacing and merging nodes

A node that replaces itself with another one asks each of its parents to lead there instead. As
the parents are right, this reaches every feature that leads to the node, and the test behind the
loop never fails.

`mergeWith` merges nodes only if one of them is empty, and then returns the empty one, to which no
feature leads any more. Of other nodes it asks whether the second one says nothing that the first
one does not say, and changes nothing.

## Main definitions

* `FeatureContent.redirect` — what leads to a node leads to another one
* `FeatureGraph.Redirected` — in the whole graph
* `FeatureContent.Covers` — a node says what another one says
* `FeatureNode.MergedTo` — the ways in which merging ends

## Main results

* `FeatureNode.replaceSelfWith_madeBy` — replacing in every graph that calls make
* `FeatureNode.mergedTo_mergeWith_madeBy` — merging in every graph that calls make
-/

namespace ThinkingUnderstanding

open Math Semantics

/-- Features that lead to `oldF` lead to `newF`. -/
def FeatureContent.redirect (oldF newF : ℕ) : FeatureContent → FeatureContent
  | .keyed kv_pairs => .keyed (kv_pairs.mapValues fun target =>
      if target = oldF then newF else target)
  | .valued value => .valued value

/-- Where a feature leads, as the contents say. -/
def FeatureContent.target : FeatureContent → String → Option ℕ
  | .keyed kv_pairs, key => kv_pairs.get? key
  | .valued _, _ => none

/-- There are no features, and no value. -/
def FeatureContent.IsEmpty : FeatureContent → Prop
  | .keyed kv_pairs => kv_pairs.size = 0
  | .valued value => value = none

instance : DecidablePred FeatureContent.IsEmpty
  | .keyed kv_pairs => inferInstanceAs (Decidable (kv_pairs.size = 0))
  | .valued value => inferInstanceAs (Decidable (value = none))

/-- The same value, or all features of the other contents. -/
def FeatureContent.Covers : FeatureContent → FeatureContent → Prop
  | .valued value, .valued value' => value' = value
  | .keyed kv_pairs, .keyed kv_pairs' => ∀ fName target,
      kv_pairs'.get? fName = some target → kv_pairs.get? fName = some target
  | _, _ => False

namespace FeatureGraph

/-- The parents are right, and what led to `oldF` leads to `newF`. -/
structure Redirected (g g' : FeatureGraph) (oldF newF : ℕ) : Prop where
  linked : g'.Linked
  content : ∀ p, (g'.get p).content = (g.get p).content.redirect oldF newF

variable {g g' : FeatureGraph} {n p this other oldF newF : ℕ} {key : String} {target : Option ℕ}
  {kv_pairs : InsertionMap String ℕ}

/-! ### Redirected contents -/

theorem kvPairs_eq_some_iff :
    g.kvPairs n = some kv_pairs ↔ (g.get n).content = .keyed kv_pairs := by
  rw [kvPairs]
  cases (g.get n).content with
  | keyed own => simp
  | valued value => simp

theorem feature_eq : g.feature n key = (g.get n).content.target key := by
  rw [feature, kvPairs]
  cases (g.get n).content <;> rfl

/-- Redirecting twice is redirecting once. -/
theorem redirect_redirect (different : oldF ≠ newF) (content : FeatureContent) :
    (content.redirect oldF newF).redirect oldF newF = content.redirect oldF newF := by
  cases content with
  | valued value => rfl
  | keyed kv_pairs =>
    refine congrArg FeatureContent.keyed (InsertionMap.ext_get? ?_ fun k => ?_)
    · rw [InsertionMap.keys_mapValues]
    · rw [InsertionMap.get?_mapValues, InsertionMap.get?_mapValues, Option.map_map]
      congr 1
      funext target
      by_cases same : target = oldF
      · simp [same, different.symm]
      · simp [same]

/-- A node of which no feature leads to `oldF` is unchanged. -/
theorem redirect_of_not_feature (none_ : ∀ key, g.feature p key ≠ some oldF) :
    (g.get p).content.redirect oldF newF = (g.get p).content := by
  cases content : (g.get p).content with
  | valued value => rfl
  | keyed kv_pairs =>
    refine congrArg FeatureContent.keyed (InsertionMap.ext_get? ?_ fun k => ?_)
    · rw [InsertionMap.keys_mapValues]
    · rw [InsertionMap.get?_mapValues]
      cases found : kv_pairs.get? k with
      | none => rfl
      | some target =>
        have other : target ≠ oldF := by
          rintro rfl
          exact none_ k (by rw [feature_eq, content, FeatureContent.target, found])
        rw [Option.map_some, if_neg other]

theorem feature_redirected (redirected : g.Redirected g' oldF newF) :
    g'.feature p key = (g.feature p key).map fun target =>
      if target = oldF then newF else target := by
  rw [feature_eq, feature_eq, redirected.content p]
  cases (g.get p).content with
  | valued value => rfl
  | keyed kv_pairs => exact InsertionMap.get?_mapValues

/-- No feature leads to a node that has been replaced. -/
theorem Redirected.parents_eq_empty (redirected : g.Redirected g' oldF newF)
    (different : oldF ≠ newF) : (g'.get oldF).parents = ∅ := by
  rw [Finset.eq_empty_iff_forall_notMem]
  intro p parent
  obtain ⟨key, leads⟩ := (redirected.linked p oldF).mp parent
  rw [feature_redirected redirected, Option.map_eq_some_iff] at leads
  obtain ⟨target, -, now⟩ := leads
  by_cases same : target = oldF
  · rw [if_pos same] at now
    exact different now.symm
  · rw [if_neg same] at now
    exact same now

theorem Linked.redirected_self (linked : g.Linked) : g.Redirected g this this where
  linked := linked
  content p := by
    cases content : (g.get p).content with
    | valued value => rfl
    | keyed kv_pairs =>
      refine congrArg FeatureContent.keyed (InsertionMap.ext_get? ?_ fun k => ?_)
      · rw [InsertionMap.keys_mapValues]
      · have same : (fun target => if target = this then this else target) = id := by
          funext target
          split_ifs with here
          · exact here.symm
          · rfl
        rw [InsertionMap.get?_mapValues, same, Option.map_id, id]

/-! ### Setting a feature -/

theorem content_addParent : ((g.addParent n other).get p).content = (g.get p).content := by
  by_cases same : p = n
  · subst same
    simp [addParent]
  · simp [addParent, Arena.get_modify_of_ne _ same]

theorem content_removeParent : ((g.removeParent n other).get p).content = (g.get p).content := by
  by_cases same : p = n
  · subst same
    simp [removeParent]
  · simp [removeParent, Arena.get_modify_of_ne _ same]

/-- Setting a feature changes the features of one node. -/
theorem content_assign : ((g.assign this kv_pairs key target).get p).content =
    if p = this then .keyed (assigned kv_pairs key target) else (g.get p).content := by
  have added : ((g.addTarget this target).get p).content = (g.get p).content := by
    cases target with
    | none => rfl
    | some target => exact content_addParent
  have dropped : ∀ (h : FeatureGraph) kv old,
      ((h.dropTarget this kv old).get p).content = (h.get p).content := by
    intro h kv old
    cases old with
    | none => rfl
    | some old =>
      rw [dropTarget]
      split_ifs
      · rfl
      · exact content_removeParent
  rw [assign, dropped, putKeyed, Arena.get_modify]
  split_ifs
  · rfl
  · exact added

end FeatureGraph

namespace FeatureNode

open FeatureGraph

variable (order : HashOrder) {g : FeatureGraph} {this other oldF newF : ℕ}

/-! ### Replacing -/

/-- The features as they are when those with the given names have been redirected. -/
structure RedirectedBy (kv_pairs kv_pairs' : InsertionMap String ℕ) (oldF newF : ℕ)
    (names : List String) : Prop where
  keys : kv_pairs'.keys = kv_pairs.keys
  look : ∀ k, kv_pairs'.get? k =
    if k ∈ names ∧ kv_pairs.get? k = some oldF then some newF else kv_pairs.get? k

theorem run_getFeature {kv_pairs : InsertionMap String ℕ} (own : g.kvPairs this = some kv_pairs)
    (key : String) : (getFeature this key).run g = .ok (kv_pairs.get? key) g := by
  rw [getFeature, EStateM.run_bind]
  simp only [EStateM.run_get, own]
  rfl

theorem run_setFeature {kv_pairs : InsertionMap String ℕ} (own : g.kvPairs this = some kv_pairs)
    (key : String) (target : Option ℕ) :
    (setFeature this key target).run g = .ok () (g.assign this kv_pairs key target) := by
  rw [setFeature, EStateM.run_bind]
  simp only [EStateM.run_get, own]
  rfl

/-- One feature is redirected, if it leads to `oldF`. -/
theorem run_substitute_step {kv_pairs : InsertionMap String ℕ} {name : String}
    (own : g.kvPairs this = some kv_pairs) (named : name ∈ kv_pairs.keys) :
    ∃ g' kv_pairs', ((do
        match ← getFeature this name with
        | none => throw .nullPointer
        | some target =>
            if target = oldF then setFeature this name (some newF) else return () :
        FeatureProgram Unit).run g = .ok () g') ∧
      g'.kvPairs this = some kv_pairs' ∧ RedirectedBy kv_pairs kv_pairs' oldF newF [name] ∧
      ∀ p, p ≠ this → (g'.get p).content = (g.get p).content := by
  obtain ⟨target, found⟩ := InsertionMap.mem_keys_iff.mp named
  rw [EStateM.run_bind, run_getFeature own, found]
  by_cases leads : target = oldF
  · refine ⟨g.assign this kv_pairs name (some newF), kv_pairs.insert name newF, ?_, ?_, ?_, ?_⟩
    · simp only [if_pos leads]
      exact run_setFeature own name (some newF)
    · rw [kvPairs_assign, if_pos rfl]
      rfl
    · refine ⟨by rw [InsertionMap.keys_insert, if_pos named], fun k => ?_⟩
      rw [InsertionMap.get?_insert]
      by_cases here : k = name
      · simp [here, found, leads]
      · simp [here]
    · intro p apart
      rw [content_assign, if_neg apart]
  · refine ⟨g, kv_pairs, ?_, own, ⟨rfl, fun k => ?_⟩, fun _ _ => rfl⟩
    · simp only [if_neg leads]
      rfl
    · refine (if_neg ?_).symm
      rintro ⟨here, there⟩
      rw [List.mem_singleton.mp here, found] at there
      exact leads (Option.some.inj there)

theorem RedirectedBy.cons {kv kv' kv'' : InsertionMap String ℕ} {name : String}
    {names : List String} (different : oldF ≠ newF) (first : RedirectedBy kv kv' oldF newF [name])
    (rest : RedirectedBy kv' kv'' oldF newF names) :
    RedirectedBy kv kv'' oldF newF (name :: names) := by
  refine ⟨rest.keys.trans first.keys, fun k => ?_⟩
  rw [rest.look, first.look]
  by_cases leads : kv.get? k = some oldF
  · by_cases here : k = name
    · subst here
      simp [leads, different.symm]
    · simp [here]
  · simp [leads]

/-- The loop of `substitute`. -/
theorem run_substitute_loop (different : oldF ≠ newF) (names : List String) :
    ∀ {g : FeatureGraph} {kv_pairs : InsertionMap String ℕ}, g.kvPairs this = some kv_pairs →
      (∀ name ∈ names, name ∈ kv_pairs.keys) →
      ∃ g' kv_pairs', (forM names fun name => (do
          match ← getFeature this name with
          | none => throw .nullPointer
          | some target =>
              if target = oldF then setFeature this name (some newF) else return () :
          FeatureProgram Unit)).run g = .ok () g' ∧
        g'.kvPairs this = some kv_pairs' ∧ RedirectedBy kv_pairs kv_pairs' oldF newF names ∧
        ∀ p, p ≠ this → (g'.get p).content = (g.get p).content := by
  induction names with
  | nil =>
    intro g kv_pairs own _
    exact ⟨g, kv_pairs, rfl, own, ⟨rfl, fun k => by simp⟩, fun _ _ => rfl⟩
  | cons name names ih =>
    intro g kv_pairs own named
    rw [List.forall_mem_cons] at named
    obtain ⟨g₁, kv₁, run₁, own₁, first, same₁⟩ := run_substitute_step own named.1
    obtain ⟨g₂, kv₂, run₂, own₂, rest, same₂⟩ := ih own₁ fun k member =>
      first.keys ▸ named.2 k member
    refine ⟨g₂, kv₂, ?_, own₂, first.cons different rest, fun p apart =>
      (same₂ p apart).trans (same₁ p apart)⟩
    rw [List.forM_cons, EStateM.run_bind, run₁]
    exact run₂

/-- `substitute` redirects the features of one node. -/
theorem run_substitute {kv_pairs : InsertionMap String ℕ} (different : oldF ≠ newF)
    (own : g.kvPairs this = some kv_pairs) :
    ∃ g', (substitute order this oldF newF).run g = .ok () g' ∧ ∀ p, (g'.get p).content =
      if p = this then (g.get p).content.redirect oldF newF else (g.get p).content := by
  have names : (getFeatureNames this).run g = .ok kv_pairs.keys g := by
    rw [getFeatureNames, EStateM.run_bind]
    simp only [EStateM.run_get, own]
    rfl
  have named : ∀ name, name ∈ order.names kv_pairs.keys ↔ name ∈ kv_pairs.keys :=
    fun name => (order.names_perm kv_pairs.keys).mem_iff
  obtain ⟨g', kv_pairs', run, own', redirected, same⟩ :=
    run_substitute_loop different (order.names kv_pairs.keys) own fun name => (named name).mp
  refine ⟨g', ?_, fun p => ?_⟩
  · rw [substitute, if_neg different, EStateM.run_bind, names]
    exact run
  · split_ifs with here
    · subst here
      rw [kvPairs_eq_some_iff.mp own', kvPairs_eq_some_iff.mp own]
      refine congrArg FeatureContent.keyed (InsertionMap.ext_get? ?_ fun k => ?_)
      · rw [redirected.keys, InsertionMap.keys_mapValues]
      · rw [redirected.look, InsertionMap.get?_mapValues]
        simp only [named]
        cases found : kv_pairs.get? k with
        | none => simp
        | some target =>
          have member : k ∈ kv_pairs.keys := InsertionMap.mem_keys_iff.mpr ⟨target, found⟩
          by_cases leads : target = oldF
          · simp [member, leads]
          · simp [leads]
    · exact same p here

/-- The loop of `replaceSelfWith` redirects the features of all parents. -/
theorem run_replaceSelfWith_loop (different : this ≠ other) (ps : List ℕ) :
    ∀ {g : FeatureGraph}, (∀ p ∈ ps, ∃ kv_pairs, g.kvPairs p = some kv_pairs) →
      ∃ g', (forM ps fun p => substitute order p this other).run g = .ok () g' ∧
        ∀ p, (g'.get p).content =
          if p ∈ ps then (g.get p).content.redirect this other else (g.get p).content := by
  induction ps with
  | nil =>
    intro g _
    exact ⟨g, rfl, fun p => by simp⟩
  | cons q ps ih =>
    intro g keyed
    rw [List.forall_mem_cons] at keyed
    obtain ⟨kv_pairs, own⟩ := keyed.1
    obtain ⟨g₁, run₁, content₁⟩ := run_substitute order different own
    have keyed₁ : ∀ p ∈ ps, ∃ kv_pairs, g₁.kvPairs p = some kv_pairs := by
      intro p member
      obtain ⟨kv, own⟩ := keyed.2 p member
      rw [kvPairs_eq_some_iff] at own
      have now := content₁ p
      rw [own] at now
      split_ifs at now
      · exact ⟨_, kvPairs_eq_some_iff.mpr now⟩
      · exact ⟨_, kvPairs_eq_some_iff.mpr now⟩
    obtain ⟨g₂, run₂, content₂⟩ := ih keyed₁
    refine ⟨g₂, ?_, fun p => ?_⟩
    · rw [List.forM_cons, EStateM.run_bind, run₁]
      exact run₂
    · rw [content₂, content₁]
      by_cases here : p = q
      · -- a node that is asked twice does nothing the second time
        simp [here, redirect_redirect different]
      · simp [here]

/-- A node that replaces itself: all features that led to it lead to the other one, and the test
behind the loop does not fail. -/
theorem run_replaceSelfWith (linked : g.Linked) (this other : ℕ) :
    ∃ g', (replaceSelfWith order this other).run g = .ok () g' ∧ g.Redirected g' this other := by
  by_cases different : other = this
  · subst different
    refine ⟨g, ?_, linked.redirected_self⟩
    rw [replaceSelfWith, if_pos rfl]
    rfl
  · have apart : this ≠ other := fun same => different same.symm
    have parent : ∀ p, p ∈ order.nodes (g.get this).parents ↔ ∃ key, g.feature p key = some this :=
      fun p => (order.mem_nodes _ p).trans (linked p this)
    obtain ⟨g', run, content⟩ := run_replaceSelfWith_loop order apart
      (order.nodes (g.get this).parents) fun p member => by
        obtain ⟨key, leads⟩ := (parent p).mp member
        obtain ⟨kv_pairs, own, -⟩ := feature_eq_some_iff.mp leads
        exact ⟨kv_pairs, own⟩
    have keeps : g'.Linked := by
      have maintains : Maintains Linked (forM (order.nodes (g.get this).parents) fun p =>
          substitute order p this other) fun _ => True :=
        Maintains.forM _ fun p _ => maintains_substitute order p this other
      exact maintains.keeps_of_run run linked
    have redirected : g.Redirected g' this other := by
      refine ⟨keeps, fun p => ?_⟩
      rw [content]
      split_ifs with member
      · rfl
      · exact (redirect_of_not_feature fun key leads =>
          member ((parent p).mpr ⟨key, leads⟩)).symm
    refine ⟨g', ?_, redirected⟩
    rw [replaceSelfWith, if_neg different, EStateM.run_bind]
    simp only [EStateM.run_get]
    rw [EStateM.run_bind, run]
    simp only []
    rw [EStateM.run_bind]
    simp only [EStateM.run_get, redirected.parents_eq_empty apart]
    rfl

/-- In every graph that calls make, a node replaces itself without failing. -/
theorem replaceSelfWith_madeBy (ops : List (HashOrder × FeatureOp)) (this other : ℕ) :
    ∃ g', (replaceSelfWith order this other).run (madeBy ops) = .ok () g' ∧
      (madeBy ops).Redirected g' this other ∧ (this ≠ other → (g'.get this).parents = ∅) := by
  obtain ⟨g', run, redirected⟩ :=
    run_replaceSelfWith order (FeatureOp.linked_madeBy ops) this other
  exact ⟨g', run, redirected, redirected.parents_eq_empty⟩

/-! ### Merging -/

/-- How `mergeWith` ends. -/
inductive MergedTo (g : FeatureGraph) (this other : ℕ) :
    EStateM.Result FeatureError FeatureGraph ℕ → Prop
  | same : other = this → MergedTo g this other (.ok this g)
  /-- The other node is empty. It is replaced by this one, and it is returned. -/
  | otherEmpty {g' : FeatureGraph} : other ≠ this → (g.get other).content.IsEmpty →
      g.Redirected g' other this → (g'.get other).parents = ∅ → MergedTo g this other (.ok other g')
  /-- Only this node is empty. It is replaced by the other one, and it is returned. -/
  | thisEmpty {g' : FeatureGraph} : other ≠ this → ¬ (g.get other).content.IsEmpty →
      (g.get this).content.IsEmpty → g.Redirected g' this other → (g'.get this).parents = ∅ →
      MergedTo g this other (.ok this g')
  /-- Neither is empty, and the other one says nothing new. -/
  | covers : other ≠ this → ¬ (g.get other).content.IsEmpty → ¬ (g.get this).content.IsEmpty →
      (g.get this).content.Covers (g.get other).content → MergedTo g this other (.ok this g)
  | fails {e : FeatureError} : other ≠ this → ¬ (g.get other).content.IsEmpty →
      ¬ (g.get this).content.IsEmpty → ¬ (g.get this).content.Covers (g.get other).content →
      MergedTo g this other (.error e g)

theorem run_isEmpty (n : ℕ) :
    (isEmpty n).run g = .ok (decide (g.get n).content.IsEmpty) g := by
  rw [isEmpty, EStateM.run_bind]
  simp only [EStateM.run_get]
  cases (g.get n).content with
  | keyed kv_pairs => rfl
  | valued value =>
    cases value with
    | none => rfl
    | some text => rfl

/-- What `mergeWith` throws leaves the graph unchanged. -/
theorem run_inconsistent (fName : String) (thisf otherf : Option ℕ) :
    ∃ e, (inconsistent fName thisf otherf).run g = .error e g := by
  cases thisf with
  | none => exact ⟨_, rfl⟩
  | some thisf =>
    cases otherf with
    | none => exact ⟨_, rfl⟩
    | some otherf =>
      have asked : ∀ n, (isValued n).run g = .ok (g.kvPairs n).isNone g := fun n => rfl
      rw [inconsistent, EStateM.run_bind, asked]
      simp only []
      rw [EStateM.run_bind, asked]
      simp only []
      split_ifs
      · exact ⟨_, rfl⟩
      · exact ⟨_, rfl⟩

/-- The features of the other node are looked up in this one. -/
theorem run_checkFeature {kv_pairs kv_pairs' : InsertionMap String ℕ}
    (own : g.kvPairs this = some kv_pairs) (own' : g.kvPairs other = some kv_pairs')
    (fName : String) :
    (kv_pairs'.get? fName = kv_pairs.get? fName ∧ ((do
        let otherf ← getFeature other fName
        let thisf ← getFeature this fName
        if otherf = thisf then return () else inconsistent fName thisf otherf :
        FeatureProgram Unit).run g = .ok () g)) ∨
      (kv_pairs'.get? fName ≠ kv_pairs.get? fName ∧ ∃ e, ((do
        let otherf ← getFeature other fName
        let thisf ← getFeature this fName
        if otherf = thisf then return () else inconsistent fName thisf otherf :
        FeatureProgram Unit).run g = .error e g)) := by
  rw [EStateM.run_bind, run_getFeature own']
  simp only []
  rw [EStateM.run_bind, run_getFeature own]
  simp only []
  by_cases equal : kv_pairs'.get? fName = kv_pairs.get? fName
  · rw [if_pos equal]
    exact Or.inl ⟨equal, rfl⟩
  · rw [if_neg equal]
    exact Or.inr ⟨equal, run_inconsistent fName _ _⟩

theorem mergedTo_mergeWith (linked : g.Linked) (this other : ℕ) :
    MergedTo g this other ((mergeWith order this other).run g) := by
  by_cases same : other = this
  · rw [mergeWith, if_pos same]
    exact MergedTo.same same
  rw [mergeWith, if_neg same, EStateM.run_bind, run_isEmpty]
  simp only [decide_eq_true_eq]
  by_cases otherEmpty : (g.get other).content.IsEmpty
  · obtain ⟨g', run, redirected⟩ := run_replaceSelfWith order linked other this
    rw [if_pos otherEmpty, EStateM.run_bind, run]
    exact MergedTo.otherEmpty same otherEmpty redirected (redirected.parents_eq_empty same)
  rw [if_neg otherEmpty, EStateM.run_bind, run_isEmpty]
  simp only [decide_eq_true_eq]
  by_cases thisEmpty : (g.get this).content.IsEmpty
  · obtain ⟨g', run, redirected⟩ := run_replaceSelfWith order linked this other
    rw [if_pos thisEmpty, EStateM.run_bind, run]
    exact MergedTo.thisEmpty same otherEmpty thisEmpty redirected
      (redirected.parents_eq_empty fun back => same back.symm)
  rw [if_neg thisEmpty, EStateM.run_bind]
  simp only [EStateM.run_get]
  rw [EStateM.run_bind]
  simp only [EStateM.run_get]
  -- neither is empty, so the contents are compared
  have covers := MergedTo.covers same otherEmpty thisEmpty
  have fails := fun e => MergedTo.fails (e := e) same otherEmpty thisEmpty
  cases own : (g.get this).content with
  | valued value =>
    rw [own] at covers fails
    cases own' : (g.get other).content with
    | valued value' =>
      rw [own'] at covers fails
      by_cases equal : value' = value
      · simp only [if_pos equal]
        exact covers equal
      · simp only [if_neg equal]
        exact fails _ equal
    | keyed kv_pairs' =>
      rw [own'] at fails
      exact fails _ id
  | keyed kv_pairs =>
    rw [own] at covers fails
    cases own' : (g.get other).content with
    | valued value' =>
      rw [own'] at fails
      exact fails _ id
    | keyed kv_pairs' =>
      rw [own'] at covers fails
      have named : ∀ name, name ∈ order.names kv_pairs'.keys ↔ name ∈ kv_pairs'.keys :=
        fun name => (order.names_perm kv_pairs'.keys).mem_iff
      have check := run_checkFeature (kvPairs_eq_some_iff.mpr own) (kvPairs_eq_some_iff.mpr own')
      simp only []
      rw [EStateM.run_bind]
      by_cases all : ∀ fName ∈ kv_pairs'.keys, kv_pairs'.get? fName = kv_pairs.get? fName
      · rw [run_forM_of_pass fun fName member => by
          rcases check fName with ⟨-, run⟩ | ⟨differ, -⟩
          · exact run
          · exact absurd (all fName ((named fName).mp member)) differ]
        refine covers fun fName target there => ?_
        rw [← all fName (InsertionMap.mem_keys_iff.mpr ⟨target, there⟩)]
        exact there
      · push Not at all
        obtain ⟨fName, member, differ⟩ := all
        obtain ⟨e, run⟩ := run_forM_of_fail
          (fun fName _ => (check fName).imp And.right And.right)
          ⟨fName, (named fName).mpr member, by
            rcases check fName with ⟨equal, -⟩ | ⟨-, run⟩
            · exact absurd equal differ
            · exact run⟩
        rw [run]
        refine fails e fun contains => ?_
        obtain ⟨target, there⟩ := InsertionMap.mem_keys_iff.mp member
        exact differ (there.trans (contains fName target there).symm)

/-- In every graph that calls make, merging ends in one of these ways. -/
theorem mergedTo_mergeWith_madeBy (ops : List (HashOrder × FeatureOp)) (this other : ℕ) :
    MergedTo (madeBy ops) this other ((mergeWith order this other).run (madeBy ops)) :=
  mergedTo_mergeWith order (FeatureOp.linked_madeBy ops) this other

end FeatureNode

end ThinkingUnderstanding
