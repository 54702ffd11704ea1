import ThinkingUnderstanding.Hierarchy.ConceptText
import ThinkingUnderstanding.Math.Acyclic
import ThinkingUnderstanding.Math.Preorder
import ThinkingUnderstanding.Model.Generalisation

/-!
# The text of a network

`ConceptNetwork.toText` prints a network from its leaves: the nodes that no other node gets to by
going up. Below a leaf it prints its first generalisation, the first generalisation of that, and
so on to the top, through concepts that are no nodes of the network too. Concepts are told apart
by their names.

Going up takes a number of steps at most here: the search is a loop, which does not end on a
cycle, and the text of a leaf is put together by a recursion. The concepts at the end of a chain
and at the other ends of links are printed completely, with the texts of URIs, of which
`java.net.URI` may refuse one.

## Main definitions

* `ConceptNetwork.searchToUp`, `leafs`, `oneLeaf`, `toText` — the method and its local functions
* `ConceptNetwork.chain`, `chainText` — the concepts that are printed for a leaf, and their text
* `ConceptNetwork.linkURIs`, `printedURIs` — the URIs that are asked for their texts
* `ConceptNetwork.ShowsEveryNode` — the contract of the text

## Main results

* `asks_oneLeaf` — the text of a leaf is that of its chain
* `leafs_eq_some` — the leaves are the nodes that no other node leads to
* `showsEveryNode_iff` — every node is on the chain of a leaf, and no leaf on another's, when
  the texts that are asked for are accepted
-/

namespace ThinkingUnderstanding

open Math Relation Semantics

/-- Why the text of a network is not made. -/
inductive TextFailure
  /-- A search that does not end, or a recursion that overflows the stack. -/
  | outOfSteps
  | uriSyntaxException (input : String)
  deriving DecidableEq, Repr

namespace ConceptNetwork

variable (platform : Platform) (printDouble : ℚ → String) (heap : Heap)

/-- A method of the network that prints. -/
abbrev TextProgram (α : Type) := EStateM TextFailure Heap α

/-- `generalisationsList.head`, if there is one. -/
def firstGeneralisation (c : ConceptRef) : List ConceptRef := (heap.generalisationsList c).take 1

/-- `searchToUp(where, what)` in `toText`, for a number of steps. -/
def searchToUp : ℕ → ConceptRef → ConceptRef → Option Bool
  | 0, _, _ => none
  | steps + 1, place, what =>
      if (heap.uriOf place).name = (heap.uriOf what).name then some true
      else
        match heap.generalisationsList place with
        | [] => some false
        | up :: _ => searchToUp steps up what

/-- `leafs` in `toText`. -/
def leafs (steps : ℕ) (network : ConceptNetwork) : Option (List ConceptRef) :=
  network.nodes.filterM fun i => do
    let above ← network.nodes.filterM fun j =>
      if (heap.uriOf j).name ≠ (heap.uriOf i).name then searchToUp heap steps j i else some false
    return above.isEmpty

/-- `x.toString`. -/
def textOf (x : ConceptRef) : TextProgram String :=
  Concept.toString platform .uriSyntaxException x

/-- `x.toStringComplete`. -/
def completeTextOf (x : ConceptRef) : TextProgram String :=
  Concept.toStringComplete platform printDouble .uriSyntaxException x

/-- `oneLink` in `toText`. -/
def oneLink (x : ConceptRef) (l : LinkRef) : TextProgram String := do
  let heap ← get
  let link := heap.link l
  let lString := (heap.uri link.uri).name
  if (← textOf platform link.source) = (← textOf platform link.destination) then
    return "<" ++ lString ++ ">"
  else if (← textOf platform x) = (← textOf platform link.destination) then
    return "[" ++ (← completeTextOf platform printDouble link.source) ++ " <" ++ lString ++ ">]"
  else if (← textOf platform link.source) = (← textOf platform x) then
    return "[<" ++ lString ++ "> " ++
      (← completeTextOf platform printDouble link.destination) ++ "]"
  else return ""

/-- `listLinks` in `toText`. -/
def listLinks (network : ConceptNetwork) (x : ConceptRef) : TextProgram String := do
  return "".intercalate (← network.links.mapM (oneLink platform printDouble x))

/-- `oneConcept` in `toText`. -/
def oneConcept (network : ConceptNetwork) (x : ConceptRef) : TextProgram String := do
  let content := ((← get).concept x).content.value
  if x ∈ network.nodes then
    return content ++ (← listLinks platform printDouble network x)
  else return "(" ++ content ++ ")"

/-- `oneLeaf` in `toText`. -/
def oneLeaf (network : ConceptNetwork) : ℕ → ConceptRef → TextProgram String
  | 0, _ => throw .outOfSteps
  | steps + 1, x => do
      match (← get).generalisationsList x with
      | [] => completeTextOf platform printDouble x
      | up :: _ =>
          let concept ← oneConcept platform printDouble network x
          let rest ← oneLeaf network steps up
          return concept ++ " <- " ++ rest

/-- `ConceptNetwork.toText`. -/
def toText (steps : ℕ) (network : ConceptNetwork) : TextProgram String := do
  match leafs (← get) steps network with
  | none => throw .outOfSteps
  | some selected =>
      let lines ← selected.mapM (oneLeaf platform printDouble network steps)
      return "\n".intercalate lines

/-! ### What is printed -/

/-- The concepts that `oneLeaf` prints, from the leaf to the top. -/
def chain : ℕ → ConceptRef → Option (List ConceptRef)
  | 0, _ => none
  | steps + 1, x =>
      match heap.generalisationsList x with
      | [] => some [x]
      | up :: _ => (chain steps up).map (x :: ·)

/-- The text of a link at a concept. -/
def linkText (x : ConceptRef) (l : LinkRef) : String :=
  let lString := (heap.uri (heap.link l).uri).name
  let source := (heap.link l).source
  let destination := (heap.link l).destination
  if heap.conceptText source = heap.conceptText destination then "<" ++ lString ++ ">"
  else if heap.conceptText x = heap.conceptText destination then
    "[" ++ heap.completeText printDouble source ++ " <" ++ lString ++ ">]"
  else if heap.conceptText source = heap.conceptText x then
    "[<" ++ lString ++ "> " ++ heap.completeText printDouble destination ++ "]"
  else ""

/-- The text of a concept that is not the last of a chain. -/
def memberText (network : ConceptNetwork) (x : ConceptRef) : String :=
  if x ∈ network.nodes then
    (heap.concept x).content.value ++
      "".intercalate (network.links.map (linkText printDouble heap x))
  else "(" ++ (heap.concept x).content.value ++ ")"

/-- The text of a chain: the last concept is printed completely. -/
def chainText (network : ConceptNetwork) : List ConceptRef → String
  | [] => ""
  | [x] => heap.completeText printDouble x
  | x :: rest => memberText printDouble heap network x ++ " <- " ++ chainText network rest

/-- The URIs that are asked for to print a link at a concept. The ends and the concept are
compared by their texts, and an end is printed completely when the other one is the concept. -/
def linkURIs (x : ConceptRef) (l : LinkRef) : List UriRef :=
  let source := (heap.link l).source
  let destination := (heap.link l).destination
  heap.phraseURIs source ++ (heap.phraseURIs destination ++
    if heap.conceptText source = heap.conceptText destination then []
    else heap.phraseURIs x ++ (heap.phraseURIs destination ++
      if heap.conceptText x = heap.conceptText destination then heap.completeURIs source
      else heap.phraseURIs source ++ (heap.phraseURIs x ++
        if heap.conceptText source = heap.conceptText x then heap.completeURIs destination
        else [])))

/-- The URIs that are asked for to print a concept of a chain. -/
def printedURIs (network : ConceptNetwork) (x : ConceptRef) : List UriRef :=
  if heap.generalisationsList x = [] then heap.completeURIs x
  else if x ∈ network.nodes then network.links.flatMap (linkURIs heap x)
  else []

/-- The text is that of the chains of its leaves, every node of the network is on one of the
chains, and no leaf is on the chain of another. -/
def ShowsEveryNode (steps : ℕ) (network : ConceptNetwork) : Prop :=
  ∃ (selected : List ConceptRef) (chainOf : ConceptRef → List ConceptRef),
    leafs heap steps network = some selected ∧
    (∀ leaf ∈ selected, chain heap steps leaf = some (chainOf leaf)) ∧
    (∃ heap', (toText platform printDouble steps network).run heap = .ok ("\n".intercalate
      (selected.map fun leaf => chainText printDouble heap network (chainOf leaf))) heap') ∧
    (∀ node ∈ network.nodes, ∃ leaf ∈ selected, node ∈ chainOf leaf) ∧
    ∀ leaf ∈ selected, ∀ other ∈ selected, leaf ≠ other → leaf ∉ chainOf other

variable {platform printDouble heap} {network : ConceptNetwork} {steps : ℕ} {c : ConceptRef}

/-! ### The requests of the text -/

theorem asks_oneLink (x : ConceptRef) (l : LinkRef) :
    Asks platform heap (linkURIs heap x l) (linkText printDouble heap x l)
      (oneLink platform printDouble x l) := by
  refine Asks.get_bind fun t kept => ?_
  dsimp only
  rw [kept.link_eq, (kept.uris _).name_eq, linkURIs, linkText]
  refine (asks_toString _).bind ((asks_toString _).bind (Asks.ite (.pure _) ?_))
  refine (asks_toString _).bind ((asks_toString _).bind (Asks.ite ?_ ?_))
  · exact (asks_toStringComplete _).map rfl
  · refine (asks_toString _).bind ((asks_toString _).bind (Asks.ite ?_ (.pure _)))
    exact (asks_toStringComplete _).map rfl

theorem asks_listLinks (x : ConceptRef) :
    Asks platform heap (network.links.flatMap (linkURIs heap x))
      ("".intercalate (network.links.map (linkText printDouble heap x)))
      (listLinks platform printDouble network x) :=
  (Asks.mapM network.links fun l _ => asks_oneLink x l).map rfl

theorem asks_oneConcept (x : ConceptRef) :
    Asks platform heap (if x ∈ network.nodes then network.links.flatMap (linkURIs heap x) else [])
      (memberText printDouble heap network x) (oneConcept platform printDouble network x) := by
  refine Asks.get_bind fun t kept => ?_
  rw [kept.concept_eq, memberText]
  exact Asks.ite ((asks_listLinks x).map rfl) (.pure _)

/-- Only objects that exist have a first generalisation. -/
theorem firstGeneralisation_of_size_le (beyond : heap.concepts.size ≤ c) :
    firstGeneralisation heap c = [] := by
  rw [firstGeneralisation, Heap.generalisationsList_of_size_le beyond, List.take_nil]

/-- A chain is not empty. -/
theorem chain_ne_nil {found : List ConceptRef} (has : chain heap steps c = some found) :
    found ≠ [] := by
  rintro rfl
  cases steps with
  | zero => cases has
  | succ steps =>
    rw [chain] at has
    split at has
    · cases has
    · obtain ⟨_, -, same⟩ := Option.map_eq_some_iff.mp has
      cases same

/-- The text of a leaf is that of its chain. -/
theorem asks_oneLeaf {found : List ConceptRef} (has : chain heap steps c = some found) :
    Asks platform heap (found.flatMap (printedURIs heap network))
      (chainText printDouble heap network found)
      (oneLeaf platform printDouble network steps c) := by
  induction steps generalizing c found with
  | zero => cases has
  | succ steps ih =>
    rw [chain] at has
    refine Asks.get_bind fun t kept => ?_
    rw [kept.generalisationsList_eq]
    cases above : heap.generalisationsList c with
    | nil =>
      rw [above] at has
      obtain rfl := Option.some.inj has
      rw [List.flatMap_singleton, printedURIs, if_pos above, chainText]
      exact asks_toStringComplete c
    | cons up rest =>
      rw [above] at has
      obtain ⟨higher, next, rfl⟩ := Option.map_eq_some_iff.mp has
      have below : heap.generalisationsList c ≠ [] := above ▸ List.cons_ne_nil up rest
      obtain ⟨first, more, rfl⟩ := List.exists_cons_of_ne_nil (chain_ne_nil next)
      rw [List.flatMap_cons, printedURIs, if_neg below, chainText]
      · exact (asks_oneConcept c).bind ((ih next).map rfl)
      · exact List.cons_ne_nil first more

/-- With enough steps the chain of a concept has the concepts that it leads to. -/
theorem chain_eq_some (fits : ¬ HasWalk (firstGeneralisation heap) steps c) :
    ∃ found, chain heap steps c = some found ∧
      ∀ a, a ∈ found ↔ Leads (firstGeneralisation heap) c a := by
  induction steps generalizing c with
  | zero => exact absurd trivial fits
  | succ steps ih =>
    rw [chain]
    cases above : heap.generalisationsList c with
    | nil =>
      refine ⟨[c], rfl, fun a => ?_⟩
      have top : firstGeneralisation heap c = [] := by rw [firstGeneralisation, above]; rfl
      rw [leads_iff, top]
      simp [eq_comm]
    | cons up rest =>
      have step : firstGeneralisation heap c = [up] := by rw [firstGeneralisation, above]; rfl
      obtain ⟨found, has, members⟩ := ih fun walk => fits ⟨up, by rw [step]; simp, walk⟩
      refine ⟨c :: found, congrArg (Option.map (c :: ·)) has, fun a => ?_⟩
      rw [leads_iff, step, List.mem_cons, members]
      simp [eq_comm]

/-- With enough steps the search finds a name exactly on the way up. -/
theorem searchToUp_eq_some (what : ConceptRef)
    (fits : ¬ HasWalk (firstGeneralisation heap) steps c) :
    ∃ found, searchToUp heap steps c what = some found ∧
      (found = true ↔ ∃ a, Leads (firstGeneralisation heap) c a ∧
        (heap.uriOf a).name = (heap.uriOf what).name) := by
  induction steps generalizing c with
  | zero => exact absurd trivial fits
  | succ steps ih =>
    rw [searchToUp]
    split
    case isTrue here => exact ⟨true, rfl, iff_of_true rfl ⟨c, ReflTransGen.refl, here⟩⟩
    case isFalse other =>
      cases above : heap.generalisationsList c with
      | nil =>
        refine ⟨false, rfl, iff_of_false Bool.false_ne_true ?_⟩
        rintro ⟨a, up, named⟩
        have top : firstGeneralisation heap c = [] := by rw [firstGeneralisation, above]; rfl
        rcases leads_iff.mp up with rfl | ⟨b, step, -⟩
        · exact other named
        · rw [top] at step
          cases step
      | cons up rest =>
        have step : firstGeneralisation heap c = [up] := by rw [firstGeneralisation, above]; rfl
        obtain ⟨found, has, iff⟩ := ih fun walk => fits ⟨up, by rw [step]; simp, walk⟩
        refine ⟨found, has, iff.trans (exists_congr fun a => and_congr_left fun named => ?_)⟩
        -- the concept itself does not have the name
        have otherwise : c ≠ a := fun same => other (same ▸ named)
        rw [leads_iff (a := c), or_iff_right otherwise, step]
        simp

section

variable (heap network)

/-- The nodes and what is above them by first generalisations. -/
def OnChains (c : ConceptRef) : Prop :=
  ∃ node ∈ network.nodes, Leads (firstGeneralisation heap) node c

/-- The nodes and the concepts above them on their chains have pairwise distinct names. -/
def DistinctNames : Prop :=
  ∀ a b, OnChains heap network a → OnChains heap network b →
    (heap.uriOf a).name = (heap.uriOf b).name → a = b

/-- No chain of first generalisations from a node upwards comes back to a concept. -/
def AcyclicChains : Prop :=
  ∀ c, OnChains heap network c →
    ¬ TransGen (fun a b => b ∈ firstGeneralisation heap a) c c

end

theorem onChains_node {node : ConceptRef} (member : node ∈ network.nodes) :
    OnChains heap network node := ⟨node, member, ReflTransGen.refl⟩

/-- Without cycles some number of steps, and every larger one, goes up from all nodes. -/
theorem AcyclicChains.exists_steps (acyclic : AcyclicChains heap network) :
    ∃ enough, ∀ steps ≥ enough, ∀ node ∈ network.nodes,
      ¬ HasWalk (firstGeneralisation heap) steps node := by
  obtain ⟨enough, short⟩ := exists_forall_not_hasWalk_iff_acc.mpr
    fun node (member : node ∈ network.nodes) =>
      acc_of_acyclic_nat (fun _ => firstGeneralisation_of_size_le)
        fun c up => acyclic c ⟨node, member, up⟩
  exact ⟨enough, fun steps many node member walk => short node member (walk.of_le many)⟩

/-- The leaves are the nodes that no node leads to in one or more steps. -/
theorem leafs_eq_some (distinct : DistinctNames heap network) (acyclic : AcyclicChains heap network)
    (fits : ∀ node ∈ network.nodes, ¬ HasWalk (firstGeneralisation heap) steps node) :
    ∃ selected, leafs heap steps network = some selected ∧
      ∀ leaf, leaf ∈ selected ↔ leaf ∈ network.nodes ∧ ∀ node ∈ network.nodes,
        ¬ TransGen (fun a b => b ∈ firstGeneralisation heap a) node leaf := by
  classical
  let r : ConceptRef → ConceptRef → Prop := fun a b => b ∈ firstGeneralisation heap a
  have asked : ∀ i ∈ network.nodes, ∀ j ∈ network.nodes,
      (if (heap.uriOf j).name ≠ (heap.uriOf i).name then searchToUp heap steps j i
        else some false) = some (decide (TransGen r j i)) := by
    intro i inside j member
    split
    case isTrue other =>
      obtain ⟨found, has, iff⟩ := searchToUp_eq_some i (fits j member)
      rw [has, Option.some_inj, ← Bool.decide_coe found, decide_eq_decide, iff]
      constructor
      · rintro ⟨a, up, named⟩
        -- names are distinct, so the concept of that name on the way up is the node
        obtain rfl := distinct a i ⟨j, member, up⟩ (onChains_node inside) named
        exact (reflTransGen_iff_eq_or_transGen.mp up).resolve_left fun same => other (same ▸ rfl)
      · exact fun up => ⟨i, up.to_reflTransGen, rfl⟩
    case isFalse same =>
      rw [not_not] at same
      obtain rfl := distinct j i (onChains_node member) (onChains_node inside) same
      -- the node itself, which is not asked, is not above itself either
      exact congrArg some (decide_eq_false (acyclic j (onChains_node member))).symm
  have first : ∀ i ∈ network.nodes, (do
      let above ← network.nodes.filterM fun j =>
        if (heap.uriOf j).name ≠ (heap.uriOf i).name then searchToUp heap steps j i else some false
      return above.isEmpty) = some (decide (∀ j ∈ network.nodes, ¬ TransGen r j i)) := by
    intro i inside
    rw [filterM_eq_some (asked i inside)]
    refine congrArg some ?_
    rw [Bool.eq_iff_iff, List.isEmpty_iff, List.filter_eq_nil_iff, decide_eq_true_iff]
    simp only [decide_eq_true_eq]
  refine ⟨_, filterM_eq_some first, fun leaf => ?_⟩
  rw [List.mem_filter, decide_eq_true_iff]

/-- The leaves are looked for by names and generalisations only. -/
theorem leafs_of_kept {t : Heap} (kept : heap.TextsKept platform t) :
    leafs t steps network = leafs heap steps network := by
  have search : ∀ steps place what,
      searchToUp t steps place what = searchToUp heap steps place what := by
    intro steps
    induction steps with
    | zero => exact fun _ _ => rfl
    | succ steps ih =>
      intro place what
      simp only [searchToUp, kept.nameOf_eq, kept.generalisationsList_eq, ih]
  simp only [leafs, search, kept.nameOf_eq]

/-- The text of leaves whose chains are known asks for what is printed on them. -/
theorem asks_toText {selected : List ConceptRef} {chainOf : ConceptRef → List ConceptRef}
    (has : leafs heap steps network = some selected)
    (chains : ∀ leaf ∈ selected, chain heap steps leaf = some (chainOf leaf)) :
    Asks platform heap
      (selected.flatMap fun leaf => (chainOf leaf).flatMap (printedURIs heap network))
      ("\n".intercalate
        (selected.map fun leaf => chainText printDouble heap network (chainOf leaf)))
      (toText platform printDouble steps network) := by
  refine Asks.get_bind fun t kept => ?_
  rw [leafs_of_kept kept, has]
  exact (Asks.mapM selected fun leaf member => asks_oneLeaf (chains leaf member)).map rfl

/-- With enough steps to go up, the text shows every node when the texts of the URIs that it
asks for are accepted. -/
theorem showsEveryNode_iff_of_fits (distinct : DistinctNames heap network)
    (acyclic : AcyclicChains heap network)
    (short : ∀ node ∈ network.nodes, ¬ HasWalk (firstGeneralisation heap) steps node) :
    ShowsEveryNode platform printDouble heap steps network ↔
      ∀ c, OnChains heap network c →
        ∀ u ∈ printedURIs heap network c, (heap.uri u).Accepted platform := by
  obtain ⟨selected, has, leaves⟩ := leafs_eq_some distinct acyclic short
  let chainOf : ConceptRef → List ConceptRef := fun c => (chain heap steps c).getD []
  have chains : ∀ node ∈ network.nodes, chain heap steps node = some (chainOf node) ∧
      ∀ a, a ∈ chainOf node ↔ Leads (firstGeneralisation heap) node a := by
    intro node member
    obtain ⟨found, has, members⟩ := chain_eq_some (short node member)
    have value : chainOf node = found := by simp only [chainOf, has, Option.getD_some]
    exact ⟨value ▸ has, value ▸ members⟩
  have nodes : ∀ leaf ∈ selected, leaf ∈ network.nodes := fun leaf member =>
    ((leaves leaf).mp member).1
  -- going down from a node to nodes that lead to it ends at a leaf
  have covered : ∀ node ∈ network.nodes, ∃ leaf ∈ selected,
      Leads (firstGeneralisation heap) leaf node := by
    intro node member
    obtain ⟨leaf, listed, first, up⟩ := exists_source
      (fun c inside => acyclic c (onChains_node inside)) member
    exact ⟨leaf, (leaves leaf).mpr ⟨listed, first⟩, up⟩
  have asks := @asks_toText platform printDouble _ _ _ _ _ has
    fun leaf member => (chains leaf (nodes leaf member)).1
  constructor
  · rintro ⟨_, _, -, -, ⟨heap', run⟩, -⟩ c ⟨node, member, up⟩ u printed
    by_contra refused
    obtain ⟨leaf, listed, down⟩ := covered node member
    have above := ((chains leaf (nodes leaf listed)).2 c).mpr (down.trans up)
    obtain ⟨e, t, thrown, -⟩ := asks.run_of_refused (.refl heap) fun accepted =>
      refused (accepted u (List.mem_flatMap.mpr
        ⟨leaf, listed, List.mem_flatMap.mpr ⟨c, above, printed⟩⟩))
    rw [run] at thrown
    cases thrown
  · intro accepted
    refine ⟨selected, chainOf, has, fun leaf member => (chains leaf (nodes leaf member)).1, ?_,
      fun node member => ?_, fun leaf member other present apart shown => ?_⟩
    · obtain ⟨heap', run, -⟩ := asks.run_of_accepted (.refl heap) fun u member => by
        obtain ⟨leaf, listed, asked⟩ := List.mem_flatMap.mp member
        obtain ⟨c, above, printed⟩ := List.mem_flatMap.mp asked
        have inside := nodes leaf listed
        exact accepted c ⟨leaf, inside, ((chains leaf inside).2 c).mp above⟩ u printed
      exact ⟨heap', run⟩
    · obtain ⟨leaf, listed, up⟩ := covered node member
      exact ⟨leaf, listed, ((chains leaf (nodes leaf listed)).2 node).mpr up⟩
    · have up := ((chains other (nodes other present)).2 leaf).mp shown
      refine ((leaves leaf).mp member).2 other (nodes other present) ?_
      exact (reflTransGen_iff_eq_or_transGen.mp up).resolve_left apart

/-- Take a network whose concepts, with those above them, have distinct names, and whose chains
of first generalisations have no cycle. The text shows every node, below leaves that are not
shown below each other, exactly when the texts of the URIs that it asks for are accepted. -/
theorem showsEveryNode_iff (platform : Platform) (printDouble : ℚ → String) (heap : Heap)
    (network : ConceptNetwork) (distinct : DistinctNames heap network)
    (acyclic : AcyclicChains heap network) :
    ∃ enough, ∀ steps ≥ enough, (ShowsEveryNode platform printDouble heap steps network ↔
      ∀ c, OnChains heap network c →
        ∀ u ∈ printedURIs heap network c, (heap.uri u).Accepted platform) := by
  obtain ⟨enough, fits⟩ := acyclic.exists_steps
  exact ⟨enough, fun steps many => showsEveryNode_iff_of_fits distinct acyclic (fits steps many)⟩

/-! ### A subject and an object -/

/-- A subject with a phrase, an object that it is linked to, and their generalisation. -/
def subjectAndObject (phrase : String) : Heap where
  concepts := .ofList [{ uri := 0, content := { value := "concept" } },
    { uri := 1, generalisations := some 0, phrases := some 0, content := { value := "subject" } },
    { uri := 2, generalisations := some 0, content := { value := "object" } }]
  uris := .ofList [{ name := "CONCEPT" }, { name := "subject" }, { name := "object" },
    { name := phrase }, { name := "has" }]
  conceptLines := .ofList [({} : TypedKLine ConceptRef).add 0 0]
  phraseLines := .ofList [({} : TypedKLine PhraseRef).add 3 0]
  phrases := .ofList [{ uri := 3, text := phrase }]
  links := .ofList [{ source := 1, destination := 2, uri := 4 }]

/-- The network of the three, with the link. -/
def threeNodes : ConceptNetwork := { nodes := [0, 1, 2], links := [0] }

section SubjectAndObject

variable {phrase : String}

theorem subjectAndObject_up {c up : ConceptRef}
    (step : up ∈ firstGeneralisation (subjectAndObject phrase) c) : up = 0 ∧ c ≠ 0 := by
  rcases lt_or_ge c (subjectAndObject phrase).concepts.size with inside | beyond
  · have all : ∀ c < 3, ∀ up ∈ firstGeneralisation (subjectAndObject "") c, up = 0 ∧ c ≠ 0 := by
      decide +kernel
    exact all c inside up step
  · rw [firstGeneralisation_of_size_le beyond] at step
    cases step

theorem subjectAndObject_listed {c : ConceptRef}
    (above : OnChains (subjectAndObject phrase) threeNodes c) : c ∈ [0, 1, 2] := by
  obtain ⟨node, member, up⟩ := above
  rcases ReflTransGen.cases_tail up with rfl | ⟨b, -, step⟩
  · exact member
  · rw [(subjectAndObject_up step).1]
    simp

theorem subjectAndObject_distinct (apart : ∀ a ∈ [0, 1, 2], ∀ b ∈ [0, 1, 2],
    ((subjectAndObject phrase).uriOf a).name = ((subjectAndObject phrase).uriOf b).name → a = b) :
    DistinctNames (subjectAndObject phrase) threeNodes :=
  fun a b first second =>
    apart a (subjectAndObject_listed first) b (subjectAndObject_listed second)

theorem subjectAndObject_acyclic : AcyclicChains (subjectAndObject phrase) threeNodes := by
  intro c _ cycle
  obtain ⟨a, first, -⟩ := TransGen.head'_iff.mp cycle
  obtain ⟨b, -, last⟩ := TransGen.tail'_iff.mp cycle
  exact (subjectAndObject_up first).2 (subjectAndObject_up last).1

end SubjectAndObject

/-- The text of the three is made: the subject is printed with its link to the object. -/
theorem subjectAndObject_shown : ∃ enough, ∀ steps ≥ enough,
    ShowsEveryNode .withoutEscapes (fun _ => "1.0") (subjectAndObject "me") steps threeNodes := by
  obtain ⟨enough, shown⟩ := showsEveryNode_iff .withoutEscapes (fun _ => "1.0")
    (subjectAndObject "me") threeNodes (subjectAndObject_distinct (by decide +kernel))
    subjectAndObject_acyclic
  refine ⟨enough, fun steps many => (shown steps many).mpr fun c above => ?_⟩
  have accepted : ∀ c ∈ [0, 1, 2], ∀ u ∈ printedURIs (subjectAndObject "me") threeNodes c,
      ((subjectAndObject "me").uri u).cached = none →
        Platform.withoutEscapes.acceptsURI ((subjectAndObject "me").uri u).format := by
    decide +kernel
  exact accepted c (subjectAndObject_listed above)

/-- The text of the phrase is asked for with that of the subject, and refused. -/
theorem fiftyPercent_not_shown : DistinctNames (subjectAndObject "50%") threeNodes ∧
    AcyclicChains (subjectAndObject "50%") threeNodes ∧ ∀ enough, ∃ steps ≥ enough,
      ¬ ShowsEveryNode .withoutEscapes (fun _ => "1.0") (subjectAndObject "50%") steps
        threeNodes := by
  have distinct : DistinctNames (subjectAndObject "50%") threeNodes :=
    subjectAndObject_distinct (by decide +kernel)
  refine ⟨distinct, subjectAndObject_acyclic, fun enough => ?_⟩
  obtain ⟨deep, fits⟩ := (@subjectAndObject_acyclic "50%").exists_steps
  refine ⟨max enough deep, le_max_left _ _, fun shown => ?_⟩
  have accepted := (showsEveryNode_iff_of_fits distinct subjectAndObject_acyclic
    (fits _ (le_max_right _ _))).mp shown 1 (onChains_node (by decide)) 3 (by decide +kernel)
  exact absurd (accepted rfl) (by decide +kernel)

example :
    returned ((toText .withoutEscapes (fun _ => "1.0") 3 threeNodes).run (subjectAndObject "me")) =
      some ("subject[<has> object[generalisations=(tu-project.com/CONCEPT@1.0#);specialisations=();" ++
        "links=;phrase=()]] <- CONCEPT[generalisations=();specialisations=();links=;phrase=()]\n" ++
        "object[subject[generalisations=(tu-project.com/CONCEPT@1.0#);specialisations=();" ++
        "links=;phrase=(tu-project.com/me@1.0#)] <has>] <- " ++
        "CONCEPT[generalisations=();specialisations=();links=;phrase=()]") := by decide +kernel

end ConceptNetwork

end ThinkingUnderstanding
