import ThinkingUnderstanding.Correlation.DomainConcepts
import ThinkingUnderstanding.Correlation.PathSearch
import ThinkingUnderstanding.Semantics.StateProgram

/-!
# The account of a clarification

`Correlation.processClarifiedConcepts` returns the shortest maps of the clarified
concepts to the target model, the domain concepts it has created, and the concepts it has
not understood. The last list comes from `checkShortestMaps`, which is to find the
concepts without a map. It asks whether the list of maps contains the concept, and a
list never equals a concept; and it looks for maps that do not end in the target, and
every map does. So the list is always empty, and a concept for which the search has
failed is in none of the three.

## Main definitions

* `checkShortestMaps`, `processClarifiedConcepts` — the methods of `Correlation`
* `LeadsToTarget`, `Accounted` — a concept is accounted for in the result

## Main results

* `checkShortestMaps_eq_nil` — nothing is ever reported as not understood
* `leadsToTarget_findPathToTarget` — a map that is found leads from its concept
* `processClarifiedConcepts_accounted_iff` — when every concept is accounted for
-/

namespace ThinkingUnderstanding.Correlation

open Math Semantics

variable (heap : Heap) (defaults : Defaults)

/-- `shortestMaps.contains(c)`: a list of concepts is compared with a concept. -/
def mapsContain (shortestMaps : List (List ConceptRef)) (_c : ConceptRef) : Bool :=
  shortestMaps.any fun _ => false

/-- `Correlation.checkShortestMaps`. -/
def checkShortestMaps (clarifiedTargetConcepts : List ConceptRef)
    (shortestMaps : List (List ConceptRef)) (targetModel : ConceptNetwork) : List ConceptRef :=
  let notUnderstood := shortestMaps.filter fun c =>
    match c.getLast? with
    | some last => ¬ (heap.getNodeByURI targetModel (heap.concept last).uri).length > 0
    | none => false
  let notMapped := clarifiedTargetConcepts.filter fun c => mapsContain shortestMaps c
  if notMapped.length + notUnderstood.length > 0 then notUnderstood.filterMap List.head? else []

/-- The clarified concepts that are not in the target model. -/
def clarifiedTargetConcepts (clarifiedConcepts : List ConceptRef)
    (targetModel : ConceptNetwork) : List ConceptRef :=
  clarifiedConcepts.filter fun c => (findInTarget heap c targetModel).isNone

/-- The shortest map of every clarified concept that is not in the target model. -/
def shortestMaps (clarifiedConcepts : List ConceptRef) (targetModel : ConceptNetwork) :
    List (List ConceptRef) :=
  (clarifiedTargetConcepts heap clarifiedConcepts targetModel).map fun c =>
    findPathToTarget heap c targetModel []

/-- `Correlation.processClarifiedConcepts`. -/
def processClarifiedConcepts (stack : ℕ) (clarifiedConcepts : List ConceptRef)
    (targetModel : ConceptNetwork) :
    GraphProgram (List ConceptRef × List ConceptRef × List ConceptRef) := do
  let heap ← get
  let maps := shortestMaps heap clarifiedConcepts targetModel
  let notUnderstood := checkShortestMaps heap clarifiedConcepts maps targetModel
  let domainConcepts ←
    createDomainConcepts defaults stack (clarifiedTargetConcepts heap clarifiedConcepts targetModel)
  return (maps.flatten, domainConcepts, notUnderstood)

/-- Within the maps there is a chain of links from the concept to one of the target. -/
def LeadsToTarget (targetModel : ConceptNetwork) (maps : List ConceptRef) (c : ConceptRef) :
    Prop :=
  ∃ rest, (c :: rest).Sublist maps ∧ (c :: rest).IsChain heap.LinkedTo ∧
    ∃ last, (c :: rest).getLast? = some last ∧ (findInTarget heap last targetModel).isSome

/-- A clarified concept is found in the target model, or a returned map leads from it to
the target model, or it is reported as not understood. -/
def Accounted (targetModel : ConceptNetwork)
    (result : List ConceptRef × List ConceptRef × List ConceptRef) (c : ConceptRef) : Prop :=
  (findInTarget heap c targetModel).isSome ∨ LeadsToTarget heap targetModel result.1 c ∨
    c ∈ result.2.2

/-- A concept of the target model can be reached from `c`. -/
def ReachesTarget (targetModel : ConceptNetwork) (c : ConceptRef) : Prop :=
  ∃ d, Relation.ReflTransGen heap.LinkedTo c d ∧ (findInTarget heap d targetModel).isSome

variable {heap} {targetModel : ConceptNetwork} {c : ConceptRef}

/-- A concept found in the target has its URI among those of the target. -/
theorem length_getNodeByURI_pos (found : (findInTarget heap c targetModel).isSome) :
    (heap.getNodeByURI targetModel (heap.concept c).uri).length > 0 := by
  simp only [findInTarget] at found
  split_ifs at found with _ present
  · exact present
  · cases found
  · cases found

/-- No concept is reported as not understood. -/
theorem checkShortestMaps_eq_nil (clarifiedConcepts : List ConceptRef)
    (targetModel : ConceptNetwork) :
    checkShortestMaps heap clarifiedConcepts (shortestMaps heap clarifiedConcepts targetModel)
      targetModel = [] := by
  have understood : ((shortestMaps heap clarifiedConcepts targetModel).filter fun c =>
      match c.getLast? with
      | some last => decide
          (¬ (heap.getNodeByURI targetModel (heap.concept last).uri).length > 0)
      | none => false) = [] := by
    rw [List.filter_eq_nil_iff]
    intro map member
    obtain ⟨c, -, rfl⟩ := List.mem_map.mp member
    cases ends : (findPathToTarget heap c targetModel []).getLast? with
    | none => exact Bool.false_ne_true
    | some last =>
      have present := length_getNodeByURI_pos (findPathToTarget_getLast heap ends)
      simp [present]
  simp only [checkShortestMaps, understood]
  split_ifs
  · rfl
  · rfl

/-- A path that is found contains a chain of links from its concept into the target. -/
theorem leadsToTarget_findPathToTarget {processed : List ConceptRef}
    (found : findPathToTarget heap c targetModel processed ≠ []) :
    LeadsToTarget heap targetModel (findPathToTarget heap c targetModel processed) c := by
  induction processed, c using search_induction heap targetModel with
  | inTarget processed c inside =>
    rw [findPathToTarget_of_inTarget heap inside]
    exact ⟨[], List.Sublist.refl _, List.isChain_singleton c, c, rfl, inside⟩
  | notInTarget processed c outside ih =>
    rw [findPathToTarget_of_notInTarget heap outside] at found ⊢
    obtain ⟨before, mapping, member, split⟩ := joinMappings_eq_append found
    obtain ⟨d, step, rfl⟩ := List.mem_map.mp member.1
    obtain ⟨rest, sublist, chain, target⟩ := ih d step member.2
    obtain ⟨link, -⟩ := mem_filterLinksMapConcepts.mp step
    refine ⟨d :: rest, ?_, List.isChain_cons_cons.mpr ⟨link, chain⟩, ?_⟩
    · rw [split]
      exact (sublist.cons_cons c).trans (List.sublist_append_right before _)
    · obtain ⟨last, ends, inside⟩ := target
      exact ⟨last, by rwa [List.getLast?_cons_cons], inside⟩

theorem LeadsToTarget.mono {maps maps' : List ConceptRef} (sublist : maps.Sublist maps')
    (leads : LeadsToTarget heap targetModel maps c) : LeadsToTarget heap targetModel maps' c := by
  obtain ⟨rest, inside, more⟩ := leads
  exact ⟨rest, inside.trans sublist, more⟩

theorem LeadsToTarget.reachesTarget {maps : List ConceptRef}
    (leads : LeadsToTarget heap targetModel maps c) : ReachesTarget heap targetModel c := by
  obtain ⟨rest, -, chain, last, ends, inside⟩ := leads
  refine ⟨last, List.relationReflTransGen_of_exists_isChain_cons rest chain ?_, inside⟩
  rw [List.getLast?_eq_some_getLast (List.cons_ne_nil c rest)] at ends
  exact Option.some.inj ends

/-- What a run returns is fixed before the domain concepts are created. -/
theorem processClarifiedConcepts_eq_ok {defaults : Defaults} {stack : ℕ}
    {clarifiedConcepts : List ConceptRef} {heap' : Heap}
    {result : List ConceptRef × List ConceptRef × List ConceptRef}
    (run : (processClarifiedConcepts defaults stack clarifiedConcepts targetModel).run heap =
      .ok result heap') :
    result.1 = (shortestMaps heap clarifiedConcepts targetModel).flatten ∧ result.2.2 = [] := by
  obtain ⟨_, _, read, run⟩ := run_bind_eq_ok_iff.mp run
  cases read
  obtain ⟨domainConcepts, _, _, last⟩ := run_bind_eq_ok_iff.mp run
  cases last
  exact ⟨rfl, checkShortestMaps_eq_nil clarifiedConcepts targetModel⟩

/-- A clarified concept is accounted for exactly when it reaches the target. -/
theorem accounted_iff_reachesTarget {clarifiedConcepts : List ConceptRef}
    {result : List ConceptRef × List ConceptRef × List ConceptRef}
    (maps : result.1 = (shortestMaps heap clarifiedConcepts targetModel).flatten)
    (none : result.2.2 = []) (clarified : c ∈ clarifiedConcepts) :
    Accounted heap targetModel result c ↔ ReachesTarget heap targetModel c := by
  constructor
  · rintro (inside | leads | reported)
    · exact ⟨c, .refl, inside⟩
    · exact leads.reachesTarget
    · rw [none] at reported
      cases reported
  · intro reaches
    by_cases inside : (findInTarget heap c targetModel).isSome
    · exact Or.inl inside
    · have found := (findPathToTarget_nil_ne_nil_iff heap).mpr reaches
      have outside : c ∈ clarifiedTargetConcepts heap clarifiedConcepts targetModel :=
        List.mem_filter.mpr ⟨clarified, by simpa using inside⟩
      refine Or.inr (Or.inl ?_)
      rw [maps]
      exact (leadsToTarget_findPathToTarget found).mono
        (List.sublist_flatten_of_mem (List.mem_map_of_mem outside))

/-- Whenever a result is returned, every clarified concept is accounted for in it exactly
when every clarified concept can reach a concept of the target model. -/
theorem processClarifiedConcepts_accounted_iff (defaults : Defaults) (stack : ℕ)
    (clarifiedConcepts : List ConceptRef) (targetModel : ConceptNetwork) (heap heap' : Heap)
    (result : List ConceptRef × List ConceptRef × List ConceptRef)
    (run : (processClarifiedConcepts defaults stack clarifiedConcepts targetModel).run heap =
      .ok result heap') :
    (∀ c ∈ clarifiedConcepts, Accounted heap targetModel result c) ↔
      ∀ c ∈ clarifiedConcepts, ReachesTarget heap targetModel c := by
  obtain ⟨maps, none⟩ := processClarifiedConcepts_eq_ok run
  exact forall₂_congr fun c clarified => accounted_iff_reachesTarget maps none clarified

/-- An instance `browser` with a phrase and without links. -/
def isolatedInstance : Heap where
  uris := .ofList [{ name := "browser", uid := "17" }, { name := "browserPhrase" }]
  concepts := .ofList [{
    generalisations := some 0
    specialisations := some 1
    phrases := some 0
    content := { value := "browser", name := "browser" } }]
  conceptLines := .ofList [{}, {}]
  phraseLines := .ofList [{ frames := .ofList [(1, 0)] }]
  phrases := .ofList [{ uri := 1, text := "browser" }]

/-- The instance, with a link to a `program`. -/
def linkedInstance : Heap :=
  { isolatedInstance with
    uris := .ofList [{ name := "browser", uid := "17" }, { name := "browserPhrase" },
      { name := "program", uid := "18" }, { name := "is" }, { name := "programPhrase" }]
    concepts := .ofList [{
      generalisations := some 0
      specialisations := some 1
      phrases := some 0
      conceptLinks := [0]
      content := { value := "browser", name := "browser" } },
      { phrases := some 1, content := { value := "program", name := "program" }, uri := 2 }]
    phraseLines := .ofList [{ frames := .ofList [(1, 0)] }, { frames := .ofList [(4, 1)] }]
    phrases := .ofList [{ uri := 1, text := "browser" }, { uri := 4, text := "program" }]
    links := .ofList [{ source := 0, destination := 1, uri := 3 }] }

/-- Over the link the instance reaches the target, and so it is accounted for. -/
theorem linkedInstance_accounted :
    ∃ result heap', (processClarifiedConcepts { reduceLinks := [] } 4 [0] { nodes := [1] }).run
        linkedInstance = .ok result heap' ∧
      ∀ c ∈ [0], Accounted linkedInstance { nodes := [1] } result c := by
  obtain ⟨domainConcepts, heap', created⟩ : ∃ domainConcepts heap',
      (createDomainConcepts { reduceLinks := [] } 4
        (clarifiedTargetConcepts linkedInstance [0] { nodes := [1] })).run linkedInstance =
          .ok domainConcepts heap' := ⟨_, _, rfl⟩
  have run : (processClarifiedConcepts { reduceLinks := [] } 4 [0] { nodes := [1] }).run
      linkedInstance =
        .ok ((shortestMaps linkedInstance [0] { nodes := [1] }).flatten, domainConcepts, _) heap' :=
    run_bind_eq_ok_iff.mpr ⟨_, _, rfl, run_bind_eq_ok_iff.mpr ⟨_, _, created, rfl⟩⟩
  refine ⟨_, _, run, (processClarifiedConcepts_accounted_iff _ _ _ _ _ _ _ run).mpr ?_⟩
  intro c member
  obtain rfl := List.mem_singleton.mp member
  exact ⟨1, .single ⟨linkedInstance.link 0, List.mem_singleton_self _, rfl⟩, by decide⟩

/-- Against a target without nodes the isolated instance is in none of the three lists. -/
theorem isolatedInstance_forgotten :
    ∃ result heap', (processClarifiedConcepts { reduceLinks := [] } 1 [0] {}).run
        isolatedInstance = .ok result heap' ∧
      ¬ ∀ c ∈ [0], Accounted isolatedInstance {} result c := by
  obtain ⟨domainConcepts, heap', created⟩ : ∃ domainConcepts heap',
      (createDomainConcepts { reduceLinks := [] } 1 [0]).run isolatedInstance =
        .ok domainConcepts heap' := ⟨_, _, rfl⟩
  have run : (processClarifiedConcepts { reduceLinks := [] } 1 [0] {}).run isolatedInstance =
      .ok ((shortestMaps isolatedInstance [0] {}).flatten, domainConcepts, _) heap' :=
    run_bind_eq_ok_iff.mpr ⟨_, _, rfl, run_bind_eq_ok_iff.mpr ⟨_, _, created, rfl⟩⟩
  refine ⟨_, _, run, fun accounted => ?_⟩
  obtain ⟨maps, none⟩ := processClarifiedConcepts_eq_ok run
  obtain ⟨d, -, inside⟩ :=
    (accounted_iff_reachesTarget maps none List.mem_cons_self).mp
      (accounted 0 List.mem_cons_self)
  exact absurd (length_getNodeByURI_pos inside) (Nat.lt_irrefl 0)

end ThinkingUnderstanding.Correlation
