import ThinkingUnderstanding.Math.Counting
import Mathlib.Logic.Relation

/-!
# Depth-first traversal along edges

A graph is given by the outgoing edges of each vertex, in order, and the target of an edge.
A depth-first traversal lists the edges by which it arrives at a vertex for the first
time, so the targets of the list are the vertices in preorder. The recursion takes the
depth that is available. In a finite graph a depth beyond the number of vertices suffices,
since every level arrives at a vertex that has not been seen.

## Main definitions

* `visit` — the arrivals after following an edge, given the earlier ones
* `Reaches` — reachability along edges
* `unseen` — the vertices of a list that have not been arrived at

## Main results

* `nodup_visit` — no vertex is arrived at twice
* `mem_visit_nil_iff` — exactly the reachable vertices are arrived at
-/

namespace Math

namespace DepthFirst

variable {V E : Type*} [DecidableEq V] (children : V → List E) (target : E → V)

/-- The arrivals after following the edge `e`, when those of `seen` have been made. -/
def visit : ℕ → List E → E → List E
  | 0, seen, _ => seen
  | depth + 1, seen, e =>
      if target e ∈ seen.map target then seen
      else (children (target e)).foldl (visit depth) (seen ++ [e])

/-- One vertex is reachable from another. -/
def Reaches : V → V → Prop :=
  Relation.ReflTransGen fun v w => ∃ e ∈ children v, target e = w

/-- A list of vertices that no edge leaves. -/
def Closed (vertices : List V) : Prop :=
  ∀ v ∈ vertices, ∀ e ∈ children v, target e ∈ vertices

/-- The number of vertices of the list that have not been arrived at. -/
def unseen (vertices : List V) (seen : List E) : ℕ :=
  vertices.countP fun v => v ∉ seen.map target

variable {children target}

theorem visit_of_seen {depth : ℕ} {seen : List E} {e : E} (known : target e ∈ seen.map target) :
    visit children target depth seen e = seen := by
  cases depth with
  | zero => rfl
  | succ depth => exact if_pos known

theorem visit_succ_of_unseen {depth : ℕ} {seen : List E} {e : E}
    (fresh : target e ∉ seen.map target) :
    visit children target (depth + 1) seen e =
      (children (target e)).foldl (visit children target depth) (seen ++ [e]) := if_neg fresh

theorem prefix_foldl {step : List E → E → List E} (extends_ : ∀ seen e, seen <+: step seen e)
    (edges : List E) (seen : List E) : seen <+: edges.foldl step seen := by
  induction edges generalizing seen with
  | nil => exact List.prefix_refl seen
  | cons e edges ih => exact (extends_ seen e).trans (ih (step seen e))

variable (children target) in
/-- A traversal only adds arrivals. -/
theorem prefix_visit (depth : ℕ) (seen : List E) (e : E) :
    seen <+: visit children target depth seen e := by
  induction depth generalizing seen e with
  | zero => exact List.prefix_refl seen
  | succ depth ih =>
    by_cases known : target e ∈ seen.map target
    · simp only [visit_of_seen known, List.prefix_rfl]
    · rw [visit_succ_of_unseen known]
      exact (List.prefix_append seen [e]).trans (prefix_foldl ih _ _)

/-- What holds of the arrivals made so far, and is kept by a first arrival along an edge of
a vertex, holds of all arrivals. -/
theorem visit_induction {P : List E → Prop} {Q : E → Prop}
    (arrival : ∀ seen e, P seen → Q e → target e ∉ seen.map target →
      P (seen ++ [e]) ∧ ∀ c ∈ children (target e), Q c)
    (depth : ℕ) {seen : List E} {e : E} (before : P seen) (edge : Q e) :
    P (visit children target depth seen e) := by
  induction depth generalizing seen e with
  | zero => exact before
  | succ depth ih =>
    by_cases known : target e ∈ seen.map target
    · rwa [visit_of_seen known]
    rw [visit_succ_of_unseen known]
    obtain ⟨arrived, onward⟩ := arrival seen e before edge known
    have through : ∀ edges : List E, (∀ c ∈ edges, Q c) → ∀ seen, P seen →
        P (edges.foldl (visit children target depth) seen) := by
      intro edges
      induction edges with
      | nil => exact fun _ _ holds => holds
      | cons c edges ih' =>
        intro all seen holds
        have first := ih holds (all c List.mem_cons_self)
        exact ih' (fun c' member => all c' (List.mem_cons_of_mem c member)) _ first
    exact through _ onward _ arrived

/-- No vertex is arrived at twice. -/
theorem nodup_visit (depth : ℕ) {seen : List E} (e : E) (nodup : (seen.map target).Nodup) :
    ((visit children target depth seen e).map target).Nodup := by
  refine visit_induction (P := fun seen => (seen.map target).Nodup) (Q := fun _ => True)
    (fun seen e nodup _ fresh => ⟨?_, fun _ _ => trivial⟩) depth nodup trivial
  rw [List.map_append, List.map_singleton]
  refine List.nodup_append.mpr ⟨nodup, List.nodup_singleton _, ?_⟩
  rintro v member w single rfl
  exact fresh (List.mem_singleton.mp single ▸ member)

/-- Every arrival is at a vertex that can be reached. -/
theorem reaches_of_mem_visit {depth : ℕ} {root e x : E}
    (from_ : Reaches children target (target root) (target e)) {seen : List E}
    (known : ∀ x ∈ seen, Reaches children target (target root) (target x))
    (member : x ∈ visit children target depth seen e) :
    Reaches children target (target root) (target x) := by
  refine visit_induction
    (P := fun seen => ∀ x ∈ seen, Reaches children target (target root) (target x))
    (Q := fun e => Reaches children target (target root) (target e))
    (fun seen e known from_ _ => ⟨fun x member => ?_, fun c edge => ?_⟩) depth known from_ x member
  · rcases List.mem_append.mp member with old | new
    · exact known x old
    · rw [List.mem_singleton.mp new]
      exact from_
  · exact from_.tail ⟨c, edge, rfl⟩

omit [DecidableEq V] in
/-- The vertices that can be reached are in every closed list that contains the start. -/
theorem Closed.mem_of_reaches {vertices : List V} (closed : Closed children target vertices)
    {v w : V} (member : v ∈ vertices) (reaches : Reaches children target v w) : w ∈ vertices := by
  induction reaches with
  | refl => exact member
  | tail _ edge ih =>
    obtain ⟨e, outgoing, rfl⟩ := edge
    exact closed _ ih e outgoing

theorem unseen_le_of_longer (vertices : List V) {seen seen' : List E} (longer : seen <+: seen') :
    unseen target vertices seen' ≤ unseen target vertices seen := by
  refine List.countP_mono_left fun v _ outside => ?_
  rw [decide_eq_true_eq] at outside ⊢
  exact fun inside => outside ((longer.map target).subset inside)

/-- An arrival at a vertex of the list leaves fewer vertices to see. -/
theorem unseen_append_lt {vertices : List V} {seen : List E} {e : E}
    (member : target e ∈ vertices) (fresh : target e ∉ seen.map target) :
    unseen target vertices (seen ++ [e]) < unseen target vertices seen := by
  refine countP_lt_countP (fun v _ outside => ?_) member (decide_eq_true fresh) ?_
  · rw [decide_eq_true_eq] at outside ⊢
    rw [List.map_append, List.mem_append, not_or] at outside
    exact outside.1
  · simp

/-- With enough depth, an edge leads to an arrival, and the edges that leave a new vertex
lead to arrivals too. -/
theorem closed_visit {vertices : List V} (closed : Closed children target vertices) :
    ∀ (depth : ℕ) (seen : List E) (e : E), target e ∈ vertices →
      unseen target vertices seen < depth →
      target e ∈ (visit children target depth seen e).map target ∧
        ∀ x ∈ visit children target depth seen e, x ∉ seen →
          ∀ c ∈ children (target x),
            target c ∈ (visit children target depth seen e).map target := by
  intro depth
  induction depth with
  | zero => exact fun _ _ _ deep => absurd deep (Nat.not_lt_zero _)
  | succ depth ih =>
    intro seen e member deep
    by_cases known : target e ∈ seen.map target
    · rw [visit_of_seen known]
      exact ⟨known, fun x inside outside => absurd inside outside⟩
    rw [visit_succ_of_unseen known]
    have deep' : unseen target vertices (seen ++ [e]) < depth := by
      have fewer := unseen_append_lt member known
      omega
    -- the edges of the new vertex, one after another
    have through : ∀ edges : List E, (∀ c ∈ edges, target c ∈ vertices) → ∀ seen,
        unseen target vertices seen < depth →
        (∀ c ∈ edges, target c ∈ (edges.foldl (visit children target depth) seen).map target) ∧
          ∀ x ∈ edges.foldl (visit children target depth) seen, x ∉ seen →
            ∀ c ∈ children (target x),
              target c ∈ (edges.foldl (visit children target depth) seen).map target := by
      intro edges
      induction edges with
      | nil => exact fun _ seen _ => ⟨List.forall_mem_nil _, fun x inside outside =>
          absurd inside outside⟩
      | cons c edges ih' =>
        intro all seen deep
        rw [List.foldl_cons]
        obtain ⟨arrived, onward⟩ := ih seen c (all c List.mem_cons_self) deep
        have longer := prefix_visit children target depth seen c
        have rest := prefix_foldl (prefix_visit children target depth)
          edges (visit children target depth seen c)
        obtain ⟨arrived', onward'⟩ := ih' (fun c' inside => all c' (List.mem_cons_of_mem c inside))
          (visit children target depth seen c)
          (Nat.lt_of_le_of_lt (unseen_le_of_longer vertices longer) deep)
        constructor
        · intro c' inside
          rcases List.mem_cons.mp inside with rfl | later
          · exact (rest.map target).subset arrived
          · exact arrived' c' later
        · intro x inside outside c' edge
          by_cases early : x ∈ visit children target depth seen c
          · exact (rest.map target).subset (onward x early outside c' edge)
          · exact onward' x inside early c' edge
    obtain ⟨arrived, onward⟩ := through _ (closed _ member) _ deep'
    have kept := prefix_foldl (prefix_visit children target depth)
      (children (target e)) (seen ++ [e])
    constructor
    · exact List.mem_map_of_mem (kept.subset (List.mem_append_right _ (List.mem_singleton.mpr rfl)))
    · intro x inside outside c edge
      by_cases here : x = e
      · subst here
        exact arrived c edge
      · refine onward x inside (fun old => ?_) c edge
        rcases List.mem_append.mp old with early | single
        · exact outside early
        · exact here (List.mem_singleton.mp single)

/-- A traversal from an edge arrives at exactly the vertices that can be reached. -/
theorem mem_visit_nil_iff {vertices : List V} (closed : Closed children target vertices) {e : E}
    (member : target e ∈ vertices) {depth : ℕ} (deep : vertices.length < depth) {v : V} :
    v ∈ (visit children target depth [] e).map target ↔
      Reaches children target (target e) v := by
  constructor
  · intro inside
    obtain ⟨x, arrival, rfl⟩ := List.mem_map.mp inside
    exact reaches_of_mem_visit Relation.ReflTransGen.refl (List.forall_mem_nil _) arrival
  · intro reaches
    obtain ⟨arrived, onward⟩ := closed_visit closed depth [] e member
      (Nat.lt_of_le_of_lt List.countP_le_length deep)
    induction reaches with
    | refl => exact arrived
    | tail _ edge ih =>
      obtain ⟨c, outgoing, rfl⟩ := edge
      obtain ⟨x, arrival, same⟩ := List.mem_map.mp ih
      exact onward x arrival List.not_mem_nil c (same ▸ outgoing)

end DepthFirst

end Math
