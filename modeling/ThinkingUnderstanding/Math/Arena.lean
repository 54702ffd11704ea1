import Mathlib.Data.List.Basic
import Mathlib.Logic.Function.Basic

/-!
# Arenas of objects

An arena holds the objects of one class. An object is named by a number, its identity;
objects are allocated one after another, and a number that has not been reached yet reads
as the default object. An arena is finite although every number can be read, and writing
to an object changes no other one.

## Main definitions

* `Arena` — the objects, and a bound beyond which there are only default ones
* `Arena.alloc`, `Arena.modify` — create an object, change an object
* `Arena.Extends` — objects have been created, and none has been changed

## Main results

* `get_alloc_size`, `get_alloc_of_ne`, `get_modify` — what is read after a change
-/

namespace Math

/-- Finitely many objects of a class, named by numbers. -/
structure Arena (α : Type*) [Inhabited α] where
  /-- The object with the given identity. -/
  get : ℕ → α
  /-- The number of identities given out. -/
  size : ℕ
  /-- No object has been written beyond them. -/
  get_of_size_le : ∀ i, size ≤ i → get i = default

namespace Arena

variable {α : Type*} [Inhabited α]

/-- The arena without objects. -/
def empty : Arena α := ⟨fun _ => default, 0, fun _ _ => rfl⟩

instance : Inhabited (Arena α) := ⟨empty⟩

/-- The arena with the given objects, numbered from zero. -/
def ofList (objects : List α) : Arena α where
  get i := objects.getD i default
  size := objects.length
  get_of_size_le i beyond := by simp [List.getD, beyond]

/-- Change the object with identity `i`. -/
def modify (arena : Arena α) (i : ℕ) (f : α → α) : Arena α where
  get := Function.update arena.get i (f (arena.get i))
  size := max arena.size (i + 1)
  get_of_size_le j beyond := by
    have other : j ≠ i := by omega
    rw [Function.update_of_ne other]
    exact arena.get_of_size_le j (by omega)

/-- Create an object, whose identity is `arena.size`. -/
def alloc (arena : Arena α) (object : α) : Arena α := arena.modify arena.size fun _ => object

theorem get_modify (arena : Arena α) (i j : ℕ) (f : α → α) :
    (arena.modify i f).get j = if j = i then f (arena.get i) else arena.get j :=
  Function.update_apply ..

@[simp] theorem get_modify_self (arena : Arena α) (i : ℕ) (f : α → α) :
    (arena.modify i f).get i = f (arena.get i) := Function.update_self ..

theorem get_modify_of_ne (arena : Arena α) {i j : ℕ} (other : j ≠ i) (f : α → α) :
    (arena.modify i f).get j = arena.get j := Function.update_of_ne other ..

/-- Two changes of an object are one. -/
theorem modify_modify (arena : Arena α) (i : ℕ) (f g : α → α) :
    (arena.modify i f).modify i g = arena.modify i (g ∘ f) := by
  have get : ((arena.modify i f).modify i g).get = (arena.modify i (g ∘ f)).get := by
    funext j
    by_cases same : j = i
    · rw [same, get_modify_self, get_modify_self, get_modify_self]
      rfl
    · rw [get_modify_of_ne _ same, get_modify_of_ne _ same, get_modify_of_ne _ same]
  have size : ((arena.modify i f).modify i g).size = (arena.modify i (g ∘ f)).size :=
    Nat.max_eq_left (Nat.le_max_right ..)
  exact (mk.injEq ..).mpr ⟨get, size⟩

@[simp] theorem get_alloc_size (arena : Arena α) (object : α) :
    (arena.alloc object).get arena.size = object := Function.update_self ..

theorem get_alloc_of_ne (arena : Arena α) {i : ℕ} (other : i ≠ arena.size) (object : α) :
    (arena.alloc object).get i = arena.get i := Function.update_of_ne other ..

theorem get_alloc_of_lt (arena : Arena α) {i : ℕ} (present : i < arena.size) (object : α) :
    (arena.alloc object).get i = arena.get i :=
  arena.get_alloc_of_ne (Nat.ne_of_lt present) object

@[simp] theorem size_alloc (arena : Arena α) (object : α) :
    (arena.alloc object).size = arena.size + 1 := Nat.max_eq_right (Nat.le_succ _)

theorem size_le_size_modify (arena : Arena α) (i : ℕ) (f : α → α) :
    arena.size ≤ (arena.modify i f).size := Nat.le_max_left ..

/-- Objects have been created, and those there were are unchanged. -/
structure Extends (arena arena' : Arena α) : Prop where
  size : arena.size ≤ arena'.size
  get : ∀ i < arena.size, arena'.get i = arena.get i

namespace Extends

variable {arena arena' arena'' : Arena α}

theorem refl (arena : Arena α) : arena.Extends arena := ⟨Nat.le_refl _, fun _ _ => rfl⟩

theorem trans (first : arena.Extends arena') (second : arena'.Extends arena'') :
    arena.Extends arena'' where
  size := Nat.le_trans first.size second.size
  get i present :=
    (second.get i (Nat.lt_of_lt_of_le present first.size)).trans (first.get i present)

theorem alloc (arena : Arena α) (object : α) : arena.Extends (arena.alloc object) where
  size := arena.size_le_size_modify ..
  get _ present := arena.get_alloc_of_lt present object

/-- A new object may be changed. -/
theorem modify (extended : arena.Extends arena') {i : ℕ} (new : arena.size ≤ i) (f : α → α) :
    arena.Extends (arena'.modify i f) where
  size := Nat.le_trans extended.size (arena'.size_le_size_modify ..)
  get j present := by
    rw [arena'.get_modify_of_ne (Nat.ne_of_lt (Nat.lt_of_lt_of_le present new))]
    exact extended.get j present

end Extends

end Arena

end Math
