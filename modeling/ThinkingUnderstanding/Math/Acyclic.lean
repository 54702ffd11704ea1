import Mathlib.Data.Fintype.Card
import Mathlib.Data.Set.Finite.Lattice
import Mathlib.Logic.Relation
import Mathlib.Order.WellFounded

/-!
# Growing a well-founded relation

A relation on objects that are linked to each other grows by a few kinds of edges: all edges
of an object that nothing leads to, an edge that closes no cycle, and the two edges through
a new object that replaces an edge. Each keeps the relation well-founded.

Here `r b a` says that `b` comes directly below `a`, so that well-foundedness excludes
infinite descent from an object.

## Main results

* `wellFounded_of_new_source` — all edges of an object that nothing leads to
* `wellFounded_of_edge` — an edge that closes no cycle
* `wellFounded_of_subdivided` — edges replaced by two through a new object
* `not_transGen_self`, `wellFounded_of_finite`, `acc_of_acyclic`, `acc_of_acyclic_nat` —
  well-foundedness and cycles
* `exists_source` — where one gets to among finitely many objects
-/

namespace Math

variable {α : Type*} {r s : α → α → Prop}

/-- In a well-founded relation nothing is below itself. -/
theorem not_transGen_self (wf : WellFounded r) (a : α) : ¬ Relation.TransGen r a a :=
  wf.transGen.irrefl.irrefl a

/-- A relation without cycles is well-founded when only finitely many objects are below any. -/
theorem wellFounded_of_finite (acyclic : ∀ a, ¬ Relation.TransGen r a a)
    (finite : {b | ∃ a, r b a}.Finite) : WellFounded r := by
  have := finite.to_subtype
  let below : {b | ∃ a, r b a} → {b | ∃ a, r b a} → Prop := fun b a => Relation.TransGen r b a
  have : IsTrans _ below := ⟨fun _ _ _ => Relation.TransGen.trans⟩
  have : Std.Irrefl below := ⟨fun a => acyclic a⟩
  have wf : WellFounded below := Finite.wellFounded_of_trans_of_irrefl below
  have inner : ∀ a : {b | ∃ a, r b a}, Acc r a.1 := by
    intro a
    induction a using wf.induction with
    | _ a ih => exact ⟨a.1, fun b edge => ih ⟨b, a.1, edge⟩ (.single edge)⟩
  exact ⟨fun a => ⟨a, fun b edge => inner ⟨b, a, edge⟩⟩⟩

/-- Where only finitely many objects have successors, an object from which no cycle is reached
is accessible. -/
theorem acc_of_acyclic {next : α → List α} (finite : {a | next a ≠ []}.Finite) {a : α}
    (acyclic : ∀ b, Relation.ReflTransGen (fun a b => b ∈ next a) a b →
      ¬ Relation.TransGen (fun a b => b ∈ next a) b b) :
    Acc (fun b a => b ∈ next a) a := by
  -- the successors of what is reached
  let below : α → α → Prop := fun c b =>
    c ∈ next b ∧ Relation.ReflTransGen (fun a b => b ∈ next a) a b
  have wf : WellFounded below := by
    refine wellFounded_of_finite (fun b cycle => ?_) ?_
    · obtain ⟨c, -, edge⟩ := Relation.TransGen.tail'_iff.mp cycle
      have around : Relation.TransGen (fun c b => c ∈ next b) b b :=
        Relation.TransGen.mono (fun _ _ => And.left) b b cycle
      exact acyclic b edge.2 (Relation.transGen_swap.mp around)
    · refine (finite.biUnion fun b _ => (next b).finite_toSet).subset fun c ⟨b, edge, _⟩ => ?_
      exact Set.mem_biUnion (List.ne_nil_of_mem edge) edge
  have reached : ∀ b, Relation.ReflTransGen (fun a b => b ∈ next a) a b →
      Acc (fun b a => b ∈ next a) b := by
    intro b
    induction b using wf.induction with
    | _ b ih => exact fun path => ⟨b, fun c edge => ih c ⟨edge, path⟩ (path.tail edge)⟩
  exact reached a .refl

/-- The same where the objects are numbered, and those from some number on have no successors. -/
theorem acc_of_acyclic_nat {next : ℕ → List ℕ} {size : ℕ}
    (beyond : ∀ a, size ≤ a → next a = []) {a : ℕ}
    (acyclic : ∀ b, Relation.ReflTransGen (fun a b => b ∈ next a) a b →
      ¬ Relation.TransGen (fun a b => b ∈ next a) b b) :
    Acc (fun b a => b ∈ next a) a := by
  refine acc_of_acyclic ((Set.finite_lt_nat size).subset fun b some => ?_) acyclic
  by_contra above
  exact some (beyond b (Nat.le_of_not_lt above))

/-- Among finitely many objects, each is reached from one that none of them leads to, when none
of them lies on a cycle. -/
theorem exists_source {objects : List α} (acyclic : ∀ a ∈ objects, ¬ Relation.TransGen r a a)
    {a : α} (member : a ∈ objects) :
    ∃ source ∈ objects, (∀ b ∈ objects, ¬ Relation.TransGen r b source) ∧
      Relation.ReflTransGen r source a := by
  -- the objects of the list that lead to another one
  let before : α → α → Prop := fun b a => b ∈ objects ∧ Relation.TransGen r b a
  have leads : ∀ {b a}, Relation.TransGen before b a → Relation.TransGen r b a := fun path => by
    induction path with
    | single edge => exact edge.2
    | tail _ edge ih => exact ih.trans edge.2
  have wf : WellFounded before := by
    refine wellFounded_of_finite (fun a cycle => ?_) (objects.finite_toSet.subset ?_)
    · obtain ⟨b, edge, -⟩ := Relation.TransGen.head'_iff.mp cycle
      exact acyclic a edge.1 (leads cycle)
    · rintro b ⟨a, edge⟩
      exact edge.1
  induction a using wf.induction with
  | _ a ih =>
    by_cases first : ∀ b ∈ objects, ¬ Relation.TransGen r b a
    · exact ⟨a, member, first, .refl⟩
    · push Not at first
      obtain ⟨b, present, path⟩ := first
      obtain ⟨source, listed, none, reaches⟩ := ih b ⟨present, path⟩ present
      exact ⟨source, listed, none, reaches.trans path.to_reflTransGen⟩

/-- An object that nothing leads to may be given any edges. -/
theorem wellFounded_of_new_source {x : α} (wf : WellFounded r)
    (grown : ∀ a b, s b a → r b a ∨ a = x) (new : ∀ a, ¬ s x a) : WellFounded s := by
  have old : ∀ a, a ≠ x → Acc s a := by
    intro a
    induction a using wf.induction with
    | _ a ih =>
      intro other
      refine ⟨a, fun b below => ?_⟩
      rcases grown a b below with edge | same
      · exact ih b edge fun same => new a (same ▸ below)
      · exact absurd same other
  refine ⟨fun a => ?_⟩
  by_cases same : a = x
  · refine ⟨a, fun b below => old b fun same' => ?_⟩
    exact new a (same' ▸ below)
  · exact old a same

/-- An edge from `x` to `y` may be added unless `x` is `y` or below it. -/
theorem wellFounded_of_edge {x y : α} (wf : WellFounded r)
    (grown : ∀ a b, s b a → r b a ∨ a = x ∧ b = y) (open' : ¬ Relation.ReflTransGen r x y) :
    WellFounded s := by
  -- below `y` only old edges are found
  have below : ∀ a, Relation.ReflTransGen r a y → Acc s a := by
    intro a
    induction a using wf.induction with
    | _ a ih =>
      intro reached
      refine ⟨a, fun b edge => ?_⟩
      rcases grown a b edge with old | ⟨rfl, -⟩
      · exact ih b old (reached.head old)
      · exact absurd reached open'
  refine ⟨fun a => ?_⟩
  induction a using wf.induction with
  | _ a ih =>
    refine ⟨a, fun b edge => ?_⟩
    rcases grown a b edge with old | ⟨-, rfl⟩
    · exact ih b old
    · exact below b .refl

/-- An object gets an edge to a new one, which leads where the object itself did. -/
theorem wellFounded_of_subdivided {x y : α} (wf : WellFounded r)
    (grown : ∀ a b, s b a → r b a ∨ (a = x ∧ b = y) ∨ (a = y ∧ r b x))
    (new : ∀ a, ¬ r y a) (bare : ∀ b, ¬ r b y) (apart : x ≠ y) : WellFounded s := by
  have old : ∀ a, a ≠ y → Acc s a := by
    intro a
    induction a using wf.induction with
    | _ a ih =>
      intro other
      refine ⟨a, fun b edge => ?_⟩
      rcases grown a b edge with here | ⟨rfl, rfl⟩ | ⟨same, -⟩
      · exact ih b here fun same => new a (same ▸ here)
      · -- what the new object leads to, its owner led to before
        refine ⟨b, fun c edge' => ?_⟩
        rcases grown b c edge' with here | ⟨same, -⟩ | ⟨-, here⟩
        · exact absurd here (bare c)
        · exact absurd same.symm apart
        · exact ih c here fun same => new a (same ▸ here)
      · exact absurd same other
  refine ⟨fun a => ⟨a, fun b edge => ?_⟩⟩
  by_cases same : b = y
  · refine ⟨b, fun c edge' => old c fun same' => ?_⟩
    subst same'
    rcases grown b c edge' with here | ⟨same'', -⟩ | ⟨-, here⟩
    · exact bare c (same ▸ here)
    · exact apart (same''.symm.trans same)
    · exact new x here
  · exact old b same

end Math
