import ThinkingUnderstanding.Math.BoundedSimulation
import ThinkingUnderstanding.Model.Generalisation

/-!
# Matching an issue against a master

`Solutions.distance` compares the links of two networks. It takes the first node of the issue and
the first node of the master that compares with it, and asks whether the master has all links:
for every concept linked to the one of the issue there has to be one linked to the one of the
master that compares with it, and has all links in turn, down to a depth. So the master is asked
to simulate the issue for a number of rounds.

The links of a concept lead to the other ends of the links of the network that have an end
comparing with it. They may lead in circles.

## Main definitions

* `compareWithGeneralisation`, `getConceptChildren`, `masterHasAllLinks`, `distance` — the
  methods of `Solutions`

## Main results

* `masterHasAllLinks_iff_simulates` — the comparison as a simulation
* `masterHasAllLinks_laws` — it is antitone in the depth, and reflexive
-/

namespace ThinkingUnderstanding

open Math

namespace Solutions

variable (heap : Heap)

/-- The URI of a concept, and those its generalisations are filed under. -/
def generalisationKeys (c : ConceptRef) : List UriRef :=
  (heap.concept c).uri :: (heap.generalisations c).keys

/-- `Solutions.compareWithGeneralisation`. -/
def compareWithGeneralisation (p q : ConceptRef) : Bool :=
  if (heap.uriOf p).name = (heap.uriOf q).name then true
  else (generalisationKeys heap p).any fun pgkey =>
    (generalisationKeys heap q).any fun qgkey => (heap.uri pgkey).name = (heap.uri qgkey).name

/-- `Solutions.getConceptChildren`. -/
def getConceptChildren (concept : ConceptRef) (links : List LinkRef) : List ConceptRef :=
  (((links.map heap.link).filter fun p =>
      compareWithGeneralisation heap concept p.source).map fun p => p.destination) ++
    (((links.map heap.link).filter fun p =>
      compareWithGeneralisation heap concept p.destination).map fun p => p.source)

/-- `Solutions.masterHasAllLinks`. The loop over the linked concepts is left with `false` at the
first one that is bad. -/
def masterHasAllLinks (issue master : ConceptNetwork) :
    ℕ → ConceptRef → ConceptRef → Bool
  | 0, _, _ => true
  | depth + 1, issueConcept, masterConcept =>
      let links := getConceptChildren heap issueConcept issue.links
      if links.isEmpty then true
      else links.all fun issueNext =>
        let bad := ((getConceptChildren heap masterConcept master.links).filter fun p =>
          compareWithGeneralisation heap p issueNext).all fun p =>
            !masterHasAllLinks issue master depth issueNext p
        !bad

/-- `Solutions.distance`. The first node of the issue is asked for once for every node of the
master; nothing is returned when it does not exist. The number of errors is not used. -/
def distance (issue master : ConceptNetwork) (_errors : ℤ) : Option ℤ := do
  let listWithFirstNode ← master.nodes.filterM fun p => do
    let first ← issue.nodes[0]?
    return compareWithGeneralisation heap p first
  match listWithFirstNode with
  | [] => return 1
  | found :: _ =>
      let depth := issue.nodes.length
      let first ← issue.nodes[0]?
      if !masterHasAllLinks heap issue master depth first found then return 1
      else return 0

variable {heap} {issue master : ConceptNetwork}

@[simp] theorem compareWithGeneralisation_self (c : ConceptRef) :
    compareWithGeneralisation heap c c = true := by
  rw [compareWithGeneralisation, if_pos rfl]

/-- The master has all links when it can follow the links of the issue, concept by concept. -/
theorem masterHasAllLinks_iff_simulates {depth : ℕ} {issueConcept masterConcept : ConceptRef} :
    masterHasAllLinks heap issue master depth issueConcept masterConcept = true ↔
      Simulates (fun c => getConceptChildren heap c issue.links)
        (fun c => getConceptChildren heap c master.links)
        (fun p q => compareWithGeneralisation heap p q = true)
        depth issueConcept masterConcept := by
  induction depth generalizing issueConcept masterConcept with
  | zero => exact iff_of_true rfl trivial
  | succ depth ih =>
    rw [masterHasAllLinks, Simulates]
    split
    case isTrue none =>
      rw [List.isEmpty_iff] at none
      rw [none]
      exact iff_of_true rfl (List.forall_mem_nil _)
    case isFalse some =>
      rw [List.all_eq_true]
      refine forall₂_congr fun issueNext _ => ?_
      -- not every candidate fails, so one of them goes on
      rw [Bool.not_eq_true', List.all_eq_false]
      constructor
      · rintro ⟨p, candidate, goes⟩
        obtain ⟨linked, compares⟩ := List.mem_filter.mp candidate
        exact ⟨p, linked, compares, ih.mp (by simpa using goes)⟩
      · rintro ⟨p, linked, compares, goes⟩
        exact ⟨p, List.mem_filter.mpr ⟨linked, compares⟩, by simp [ih.mpr goes]⟩

theorem masterHasAllLinks_of_succ {depth : ℕ} {issueConcept masterConcept : ConceptRef}
    (all : masterHasAllLinks heap issue master (depth + 1) issueConcept masterConcept = true) :
    masterHasAllLinks heap issue master depth issueConcept masterConcept = true :=
  masterHasAllLinks_iff_simulates.mpr (masterHasAllLinks_iff_simulates.mp all).of_succ

theorem masterHasAllLinks_self (network : ConceptNetwork) (depth : ℕ) (c : ConceptRef) :
    masterHasAllLinks heap network network depth c c = true :=
  masterHasAllLinks_iff_simulates.mpr
    (simulates_self (fun p => compareWithGeneralisation_self p) depth c)

/-- The first node of a network is the first one that compares with it. -/
theorem distance_self {network : ConceptNetwork} (some_node : network.nodes ≠ []) (errors : ℤ) :
    distance heap network network errors = some 0 := by
  obtain ⟨first, rest, nodes⟩ := List.exists_cons_of_ne_nil some_node
  have compared : (network.nodes.filterM fun p => do
      let first ← network.nodes[0]?
      return compareWithGeneralisation heap p first) =
        some (network.nodes.filter fun p => compareWithGeneralisation heap p first) := by
    apply filterM_eq_some
    intro p _
    rw [nodes]
    rfl
  -- the nodes that compare with the first one start with itself
  have found : (network.nodes.filter fun p => compareWithGeneralisation heap p first) =
      first :: rest.filter fun p => compareWithGeneralisation heap p first := by
    rw [nodes, List.filter_cons, if_pos (compareWithGeneralisation_self first)]
  have asked : network.nodes[0]? = some first := by rw [nodes]; rfl
  rw [distance, compared, found, asked]
  change
    (if !masterHasAllLinks heap network network _ first first then some (1 : ℤ) else some 0) = _
  rw [masterHasAllLinks_self]
  rfl

/-- What the master has down to a depth it has down to a smaller one; a network has all the links
of its own concepts; and its distance from itself is zero, whatever circles its links make. -/
theorem masterHasAllLinks_laws (heap : Heap) :
    (∀ issue master issueConcept masterConcept depth,
      masterHasAllLinks heap issue master (depth + 1) issueConcept masterConcept = true →
        masterHasAllLinks heap issue master depth issueConcept masterConcept = true) ∧
      (∀ network depth c, masterHasAllLinks heap network network depth c c = true) ∧
      ∀ network : ConceptNetwork, network.nodes ≠ [] → ∀ errors,
        distance heap network network errors = some 0 :=
  ⟨fun _ _ _ _ _ => masterHasAllLinks_of_succ, masterHasAllLinks_self,
    fun _ some_node errors => distance_self some_node errors⟩

/-! ### A circle -/

/-- A user who has a computer, which serves the user. -/
def circle : Heap where
  concepts := .ofList [{ uri := 0 }, { uri := 1 }]
  uris := .ofList [{ name := "user" }, { name := "computer" }, { name := "has" },
    { name := "serves" }]
  links := .ofList [{ source := 0, destination := 1, uri := 2 },
    { source := 1, destination := 0, uri := 3 }]

/-- The network of the user and the computer is at distance zero from itself. -/
theorem circle_distance_self :
    distance circle { nodes := [0, 1], links := [0, 1] } { nodes := [0, 1], links := [0, 1] } 0 =
      some 0 :=
  (masterHasAllLinks_laws circle).2.2 { nodes := [0, 1], links := [0, 1] } (by simp) 0

end Solutions

end ThinkingUnderstanding
