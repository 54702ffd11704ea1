import Mathlib.Data.List.Chain
import Mathlib.Data.List.Nodup

/-!
# Chains that avoid what has been processed

A depth-first search that carries a list of processed nodes, and adds a node to it only
when it leaves the node, follows the chains defined here: no node after the first is in
the list, and no node repeats one of those before its predecessor. A node may follow
itself, since the list does not contain it yet.

Without processed nodes such chains reach everything that can be reached at all, because
a walk can be freed of its loops.

## Main definitions

* `Math.FreshChain` — a chain of a relation that avoids a list of nodes and itself

## Main results

* `freshChain_cons_cons_iff` — the recursion a search follows
* `exists_freshChain_of_reflTransGen` — loop erasure
-/

namespace Math

variable {α : Type*} {next : α → α → Prop} {processed chain : List α} {a b : α}

/-- A chain of `next` in which no node after the first has been processed, and none is
among the nodes before its predecessor. -/
structure FreshChain (next : α → α → Prop) (processed chain : List α) : Prop where
  linked : chain.IsChain next
  unprocessed : ∀ i e, chain[i + 1]? = some e → e ∉ processed
  fresh : ∀ i j e, chain[i + 1]? = some e → j < i → chain[j]? ≠ some e

theorem freshChain_singleton (a : α) : FreshChain next processed [a] where
  linked := List.isChain_singleton a
  unprocessed _ _ present := nomatch present
  fresh _ _ _ present := nomatch present

/-- A chain goes on from its second node, with the first one processed. -/
theorem freshChain_cons_cons_iff :
    FreshChain next processed (a :: b :: chain) ↔
      next a b ∧ b ∉ processed ∧ FreshChain next (processed ++ [a]) (b :: chain) := by
  constructor
  · intro h
    obtain ⟨step, linked⟩ := List.isChain_cons_cons.mp h.linked
    refine ⟨step, h.unprocessed 0 b rfl, linked, fun i e present => ?_, fun i j e present lt => ?_⟩
    · rw [List.mem_append, not_or, List.mem_singleton]
      refine ⟨h.unprocessed (i + 1) e present, ?_⟩
      rintro rfl
      exact h.fresh (i + 1) 0 e present i.succ_pos rfl
    · exact h.fresh (i + 1) (j + 1) e present (Nat.succ_lt_succ lt)
  · rintro ⟨step, outside, h⟩
    refine ⟨List.isChain_cons_cons.mpr ⟨step, h.linked⟩, fun i e present => ?_,
      fun i j e present lt => ?_⟩
    · -- only the first two elements of the longer chain are new to compare
      cases i with
      | zero =>
        obtain rfl : b = e := Option.some.inj present
        exact outside
      | succ i => exact fun member => h.unprocessed i e present (List.mem_append_left _ member)
    · cases i with
      | zero => exact absurd lt j.not_lt_zero
      | succ i =>
        cases j with
        | zero =>
          intro same
          obtain rfl : a = e := Option.some.inj same
          exact h.unprocessed i a present (List.mem_append_right _ (List.mem_singleton_self a))
        | succ j => exact h.fresh i j e present (Nat.lt_of_succ_lt_succ lt)

/-- A chain without repetition is fresh when nothing has been processed. -/
theorem freshChain_of_nodup (linked : chain.IsChain next) (nodup : chain.Nodup) :
    FreshChain next [] chain where
  linked := linked
  unprocessed _ e _ := List.not_mem_nil
  fresh i j e present lt same := by
    have inside : j < chain.length := (List.getElem?_eq_some_iff.mp same).1
    have equal := (List.getElem?_inj inside nodup).mp (same.trans present.symm)
    omega

/-- Loop erasure: a chain can be freed of its repetitions, and gets no longer. -/
theorem exists_nodup_chain_of_isChain {rest : List α} (linked : (a :: rest).IsChain next)
    (last : (a :: rest).getLast? = some b) :
    ∃ rest', (a :: rest').IsChain next ∧ (a :: rest').Nodup ∧
      (a :: rest').getLast? = some b ∧ rest'.length ≤ rest.length := by
  induction rest generalizing a with
  | nil => exact ⟨[], linked, List.nodup_singleton a, last, Nat.le_refl 0⟩
  | cons c rest ih =>
    obtain ⟨step, linked⟩ := List.isChain_cons_cons.mp linked
    rw [List.getLast?_cons_cons] at last
    obtain ⟨rest', linked, nodup, last, shorter⟩ := ih linked last
    rw [List.length_cons]
    by_cases member : a ∈ c :: rest'
    · -- the chain comes back to `a`: it is cut there
      obtain ⟨before, after, split⟩ := List.append_of_mem member
      have suffix : a :: after <:+ c :: rest' := ⟨before, split.symm⟩
      have length := suffix.length_le
      simp only [List.length_cons] at length
      refine ⟨after, linked.suffix suffix, nodup.sublist suffix.sublist, ?_, by omega⟩
      rw [split] at last
      simpa using last
    · exact ⟨c :: rest', List.isChain_cons_cons.mpr ⟨step, linked⟩,
        List.nodup_cons.mpr ⟨member, nodup⟩, last, by rw [List.length_cons]; omega⟩

/-- What can be reached is reached by a chain without repetition. -/
theorem exists_nodup_chain_of_reflTransGen (reach : Relation.ReflTransGen next a b) :
    ∃ rest, (a :: rest).IsChain next ∧ (a :: rest).Nodup ∧ (a :: rest).getLast? = some b := by
  obtain ⟨walk, linked, last⟩ := List.exists_isChain_cons_of_relationReflTransGen reach
  obtain ⟨rest, linked, nodup, ends, -⟩ := exists_nodup_chain_of_isChain linked
    ((List.getLast?_eq_some_getLast (List.cons_ne_nil a walk)).trans (congrArg some last))
  exact ⟨rest, linked, nodup, ends⟩

theorem exists_freshChain_of_reflTransGen (reach : Relation.ReflTransGen next a b) :
    ∃ rest, FreshChain next [] (a :: rest) ∧ (a :: rest).getLast? = some b := by
  obtain ⟨rest, linked, nodup, last⟩ := exists_nodup_chain_of_reflTransGen reach
  exact ⟨rest, freshChain_of_nodup linked nodup, last⟩

theorem FreshChain.reflTransGen {rest : List α} (h : FreshChain next processed (a :: rest))
    (last : (a :: rest).getLast? = some b) : Relation.ReflTransGen next a b := by
  refine List.relationReflTransGen_of_exists_isChain_cons rest h.linked ?_
  rw [List.getLast?_eq_some_getLast (List.cons_ne_nil a rest)] at last
  exact Option.some.inj last

end Math
