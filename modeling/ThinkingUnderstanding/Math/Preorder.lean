import Mathlib.Data.List.Nodup
import Mathlib.Logic.Relation
import ThinkingUnderstanding.Math.Descent

/-!
# Depth-first preorder

A recursion that goes through a list of nodes, and into the successors of each before it
comes to the next one, meets the nodes in depth-first preorder. A node with several
predecessors is met once below each of them. Where the recursion ends, that is for
accessible nodes, there is exactly one such list, and it has the nodes that are reached.

## Main definitions

* `Preorder` — the list of nodes met below the nodes of a list
* `TopmostHits` — the nodes at which a recursion stops that does not go below a hit

## Main results

* `Preorder.unique`, `exists_preorder` — there is one list, for accessible nodes
* `Preorder.mem_iff` — the nodes of the list are those that are reached
* `TopmostHits.mem_iff` — in a forest, the hits with no hit above them
-/

namespace Math

open Relation

variable {α : Type*}

/-- The second list has the nodes of the first one, each followed by what is met below it. -/
inductive Preorder (next : α → List α) : List α → List α → Prop
  | nil : Preorder next [] []
  | cons {a : α} {as below rest : List α} : Preorder next (next a) below →
      Preorder next as rest → Preorder next (a :: as) (a :: (below ++ rest))

/-- A node is reached in some number of steps to successors. -/
def Leads (next : α → List α) (a b : α) : Prop := ReflTransGen (fun a b => b ∈ next a) a b

variable {next : α → List α} {as bs cs : List α}

theorem leads_iff {a c : α} : Leads next a c ↔ a = c ∨ ∃ b ∈ next a, Leads next b c :=
  ReflTransGen.cases_head_iff

namespace Preorder

theorem unique (first : Preorder next as bs) (second : Preorder next as cs) : bs = cs := by
  induction first generalizing cs with
  | nil =>
    cases second
    rfl
  | cons _ _ ihBelow ihRest =>
    cases second with
    | cons below rest => rw [ihBelow below, ihRest rest]

theorem append (first : Preorder next as bs) {as' bs' : List α} (second : Preorder next as' bs') :
    Preorder next (as ++ as') (bs ++ bs') := by
  induction first with
  | nil => exact second
  | cons below _ _ ihRest =>
    rw [List.cons_append, List.cons_append, List.append_assoc]
    exact .cons below ihRest

/-- What is met are the nodes of the list, and what they lead to. -/
theorem mem_iff (preorder : Preorder next as bs) {c : α} : c ∈ bs ↔ ∃ a ∈ as, Leads next a c := by
  induction preorder with
  | nil => simp
  | cons _ _ ihBelow ihRest =>
    rw [List.mem_cons, List.mem_append, ihBelow, ihRest, List.exists_mem_cons_iff, leads_iff,
      or_assoc, eq_comm]

end Preorder

/-- There is a preorder for each list of accessible nodes. -/
theorem exists_preorder (acc : ∀ a ∈ as, Acc (fun b a => b ∈ next a) a) :
    ∃ bs, Preorder next as bs := by
  have lists : ∀ as : List α, (∀ a ∈ as, ∃ below, Preorder next (next a) below) →
      ∃ bs, Preorder next as bs := by
    intro as
    induction as with
    | nil => exact fun _ => ⟨[], .nil⟩
    | cons a rest ih =>
      intro each
      rw [List.forall_mem_cons] at each
      obtain ⟨below, first⟩ := each.1
      obtain ⟨after, second⟩ := ih each.2
      exact ⟨_, .cons first second⟩
  refine lists as fun a member => ?_
  have ends := acc a member
  clear member acc
  induction ends with
  | intro a _ ih => exact lists (next a) ih

/-- The nodes that have a preorder are accessible. -/
theorem Preorder.acc (preorder : Preorder next as bs) :
    ∀ a ∈ as, Acc (fun b a => b ∈ next a) a := by
  induction preorder with
  | nil => exact List.forall_mem_nil _
  | cons _ _ ihBelow ihRest => exact List.forall_mem_cons.mpr ⟨⟨_, ihBelow⟩, ihRest⟩

/-! ### Topmost hits -/

section Hits

variable {β : Type*}

/-- The nodes at which a lookup succeeds, when it is not tried below such a node, with what it
finds there. -/
inductive TopmostHits (next : α → List α) (lookup : α → Option β) : List α → List (α × β) → Prop
  | nil : TopmostHits next lookup [] []
  | hit {a : α} {b : β} {as : List α} {hits : List (α × β)} : lookup a = some b →
      TopmostHits next lookup as hits → TopmostHits next lookup (a :: as) ((a, b) :: hits)
  | miss {a : α} {as : List α} {below hits : List (α × β)} : lookup a = none →
      TopmostHits next lookup (next a) below → TopmostHits next lookup as hits →
      TopmostHits next lookup (a :: as) (below ++ hits)

variable {lookup : α → Option β} {hits : List (α × β)}

theorem Preorder.exists_topmostHits (preorder : Preorder next as bs) (lookup : α → Option β) :
    ∃ hits, TopmostHits next lookup as hits := by
  induction preorder with
  | nil => exact ⟨[], .nil⟩
  | @cons a _ _ _ _ _ ihBelow ihRest =>
    obtain ⟨below, first⟩ := ihBelow
    obtain ⟨after, second⟩ := ihRest
    cases found : lookup a with
    | some b => exact ⟨_, .hit found second⟩
    | none => exact ⟨_, .miss found first second⟩

namespace TopmostHits

theorem found (topmost : TopmostHits next lookup as hits) :
    ∀ hit ∈ hits, lookup hit.1 = some hit.2 := by
  induction topmost with
  | nil => exact List.forall_mem_nil _
  | hit success _ ih => exact List.forall_mem_cons.mpr ⟨success, ih⟩
  | miss _ _ _ ihBelow ihRest => exact List.forall_mem_append.mpr ⟨ihBelow, ihRest⟩

/-- The hits are among the nodes that are reached. -/
theorem leads (topmost : TopmostHits next lookup as hits) :
    ∀ hit ∈ hits, ∃ a ∈ as, Leads next a hit.1 := by
  induction topmost with
  | nil => exact List.forall_mem_nil _
  | hit _ _ ih =>
    refine List.forall_mem_cons.mpr ⟨⟨_, List.mem_cons_self, .refl⟩, fun hit member => ?_⟩
    obtain ⟨a, root, path⟩ := ih hit member
    exact ⟨a, List.mem_cons_of_mem _ root, path⟩
  | miss _ _ _ ihBelow ihRest =>
    refine List.forall_mem_append.mpr ⟨fun hit member => ?_, fun hit member => ?_⟩
    · obtain ⟨b, edge, path⟩ := ihBelow hit member
      exact ⟨_, List.mem_cons_self, leads_iff.mpr (Or.inr ⟨b, edge, path⟩)⟩
    · obtain ⟨a, root, path⟩ := ihRest hit member
      exact ⟨a, List.mem_cons_of_mem _ root, path⟩

end TopmostHits

namespace Preorder

/-- What is met below a node is what it leads to in some steps. -/
theorem mem_below_iff {a c : α} (below : Preorder next (next a) bs) :
    c ∈ bs ↔ TransGen (fun a b => b ∈ next a) a c := by
  rw [below.mem_iff, TransGen.head'_iff]
  rfl

theorem mem_of_leads (preorder : Preorder next as bs) {b c : α} (member : b ∈ bs)
    (leads : Leads next b c) : c ∈ bs := by
  obtain ⟨a, first, path⟩ := preorder.mem_iff.mp member
  exact preorder.mem_iff.mpr ⟨a, first, path.trans leads⟩

end Preorder

section Split

variable {a b c : α} {below rest : List α}

/-- Nothing in a forest is above a root. -/
theorem Preorder.not_above_root (first : Preorder next (next a) below)
    (second : Preorder next as rest) (nodup : (a :: (below ++ rest)).Nodup)
    (member : b ∈ a :: (below ++ rest)) : ¬ TransGen (fun a b => b ∈ next a) b a := by
  intro above
  obtain ⟨root, -⟩ := List.nodup_cons.mp nodup
  apply root
  rw [List.mem_append]
  rcases List.mem_cons.mp member with rfl | inside
  · exact Or.inl (first.mem_below_iff.mpr above)
  · exact (List.mem_append.mp inside).imp (first.mem_of_leads · above.to_reflTransGen)
      (second.mem_of_leads · above.to_reflTransGen)

/-- What is above a node below the first root is that root, or below it too. -/
theorem Preorder.above_of_mem_below (second : Preorder next as rest)
    (nodup : (a :: (below ++ rest)).Nodup) (inside : c ∈ below)
    (member : b ∈ a :: (below ++ rest)) (above : TransGen (fun a b => b ∈ next a) b c) :
    b = a ∨ b ∈ below := by
  have disjoint := List.disjoint_of_nodup_append (List.nodup_cons.mp nodup).2
  refine (List.mem_cons.mp member).imp_right fun member => ?_
  refine (List.mem_append.mp member).resolve_right fun other => ?_
  exact disjoint inside (second.mem_of_leads other above.to_reflTransGen)

/-- What is above a node of the other roots is one too. -/
theorem Preorder.above_of_mem_rest (first : Preorder next (next a) below)
    (nodup : (a :: (below ++ rest)).Nodup) (inside : c ∈ rest)
    (member : b ∈ a :: (below ++ rest)) (above : TransGen (fun a b => b ∈ next a) b c) :
    b ∈ rest := by
  have disjoint := List.disjoint_of_nodup_append (List.nodup_cons.mp nodup).2
  rcases List.mem_cons.mp member with rfl | member
  · exact absurd inside (disjoint (first.mem_below_iff.mpr above))
  · refine (List.mem_append.mp member).resolve_left fun other => ?_
    exact disjoint (first.mem_of_leads other above.to_reflTransGen) inside

end Split

/-- Where no node is met twice, the lookup stops at the nodes where it succeeds and does not
at any node above. -/
theorem TopmostHits.mem_iff (topmost : TopmostHits next lookup as hits)
    (preorder : Preorder next as bs) (nodup : bs.Nodup) {c : α} {found : β} :
    (c, found) ∈ hits ↔ c ∈ bs ∧ lookup c = some found ∧
      ∀ b ∈ bs, TransGen (fun a b => b ∈ next a) b c → lookup b = none := by
  -- on the search beside the preorder: a hit leaves out the nodes below it,
  -- a miss goes through them before the rest
  induction topmost generalizing bs with
  | nil =>
    cases preorder
    simp
  | @hit a b as hits success _ ih =>
    cases preorder with
    | @cons _ _ below rest first second =>
      have apart := (List.nodup_cons.mp nodup).2.of_append_right
      rw [List.mem_cons, Prod.mk.injEq, ih second apart]
      constructor
      · rintro (⟨rfl, rfl⟩ | ⟨inside, here, none⟩)
        · refine ⟨List.mem_cons_self, success, fun b member above => ?_⟩
          exact absurd above (first.not_above_root second nodup member)
        · refine ⟨List.mem_cons_of_mem _ (List.mem_append_right _ inside), here, ?_⟩
          intro b member above
          exact none b (first.above_of_mem_rest nodup inside member above) above
      · rintro ⟨member, here, none⟩
        rcases List.mem_cons.mp member with rfl | member
        · exact Or.inl ⟨rfl, Option.some.inj (here.symm.trans success)⟩
        rcases List.mem_append.mp member with inside | inside
        · -- below the first root, where the lookup succeeds, it is not tried
          have missed := none a List.mem_cons_self (first.mem_below_iff.mp inside)
          rw [success] at missed
          cases missed
        · exact Or.inr ⟨inside, here, fun b among above =>
            none b (List.mem_cons_of_mem _ (List.mem_append_right _ among)) above⟩
  | @miss a as hitsBelow hits failure _ _ ihBelow ihRest =>
    cases preorder with
    | @cons _ _ below rest first second =>
      have inner := (List.nodup_cons.mp nodup).2
      rw [List.mem_append, ihBelow first inner.of_append_left, ihRest second inner.of_append_right]
      constructor
      · rintro (⟨inside, here, none⟩ | ⟨inside, here, none⟩)
        · refine ⟨List.mem_cons_of_mem _ (List.mem_append_left _ inside), here, ?_⟩
          intro b member above
          rcases second.above_of_mem_below nodup inside member above with rfl | among
          · exact failure
          · exact none b among above
        · refine ⟨List.mem_cons_of_mem _ (List.mem_append_right _ inside), here, ?_⟩
          intro b member above
          exact none b (first.above_of_mem_rest nodup inside member above) above
      · rintro ⟨member, here, none⟩
        rcases List.mem_cons.mp member with rfl | member
        · rw [failure] at here
          cases here
        · refine (List.mem_append.mp member).imp (fun inside => ⟨inside, here, fun b among => ?_⟩)
            fun inside => ⟨inside, here, fun b among => ?_⟩
          · exact none b (List.mem_cons_of_mem _ (List.mem_append_left _ among))
          · exact none b (List.mem_cons_of_mem _ (List.mem_append_right _ among))

end Hits

end Math
