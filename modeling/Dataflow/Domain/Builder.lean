import Dataflow.Assignment
import Dataflow.Domain

/-! Collecting the elements of a domain. A builder keeps the elements in the order of their first
insertion and beside them the number of each, so that a repeated element is answered by looking it
up. Once all elements are in, the list alone is the domain. -/
namespace Dataflow

namespace Domain

/-- The list and the numbers say the same. -/
structure Builder (ε : Type) [DecidableEq ε] where
  elements : List ε
  index : Assignment ε Nat
  inStep : ∀ e i, index.get? e = some i ↔ elements[i]? = some e

namespace Builder

variable {ε : Type} [DecidableEq ε]

def empty : Builder ε := ⟨[], Assignment.empty, by simp⟩

def size (builder : Builder ε) : Nat := builder.elements.length

def isEmpty (builder : Builder ε) : Bool := builder.elements.isEmpty

def contains (builder : Builder ε) (e : ε) : Bool := (builder.index.get? e).isSome

theorem get?_eq_none_iff (builder : Builder ε) (e : ε) :
    builder.index.get? e = none ↔ e ∉ builder.elements := by
  rw [List.mem_iff_getElem?, Option.eq_none_iff_forall_ne_some, not_exists]
  exact forall_congr' fun i => not_congr (builder.inStep e i)

/-- Puts a new element at the end of the list, under the next number. -/
def push (builder : Builder ε) (e : ε) (fresh : builder.index.get? e = none) : Builder ε where
  elements := builder.elements ++ [e]
  index := builder.index.set e builder.size
  inStep := by
    intro x i
    have place : (builder.elements ++ [e])[i]? = some x ↔
        builder.elements[i]? = some x ∨ i = builder.size ∧ x = e := by
      rw [List.getElem?_append, List.getElem?_singleton]
      have bound : builder.elements[i]? = some x → i < builder.size := fun found =>
        (List.getElem?_eq_some_iff.mp found).1
      grind [size]
    rw [place, ← builder.inStep, Assignment.get?_set]
    by_cases same : x = e
    · subst same
      simp [fresh, eq_comm]
    · simp [same]

/-- The number of the element. A new one gets the next number. -/
def insert (builder : Builder ε) (e : ε) : Nat × Builder ε :=
  match found : builder.index.get? e with
  | some i => (i, builder)
  | none => (builder.size, builder.push e found)

/-- Inserts the elements one by one and lists the answers. -/
def insertAll (builder : Builder ε) : List ε → List Nat × Builder ε
  | [] => ([], builder)
  | e :: rest =>
    let (i, builder) := builder.insert e
    let (others, builder) := builder.insertAll rest
    (i :: others, builder)

theorem nodup_elements (builder : Builder ε) : builder.elements.Nodup := by
  rw [List.Nodup, List.pairwise_iff_getElem]
  intro i j boundFirst boundSecond less same
  have first := (builder.inStep _ i).mpr (List.getElem?_eq_getElem boundFirst)
  have second := (builder.inStep _ j).mpr (List.getElem?_eq_getElem boundSecond)
  rw [same, second] at first
  cases first
  omega

def freeze (builder : Builder ε) : Domain ε := ⟨builder.elements, builder.nodup_elements⟩

theorem freeze_empty : (empty : Builder ε).freeze = Domain.empty := rfl

theorem elements_insert (builder : Builder ε) (e : ε) :
    (builder.insert e).2.elements =
      if e ∈ builder.elements then builder.elements else builder.elements ++ [e] := by
  unfold insert
  split
  · next i found =>
    have present : e ∈ builder.elements := List.mem_of_getElem? ((builder.inStep e i).mp found)
    rw [if_pos present]
  · next found =>
    rw [if_neg ((builder.get?_eq_none_iff e).mp found)]
    rfl

/-- The answer to an insertion is the place of the element from then on. -/
theorem getElem?_insert (builder : Builder ε) (e : ε) :
    (builder.insert e).2.elements[(builder.insert e).1]? = some e := by
  unfold insert
  split
  · next i found => exact (builder.inStep e i).mp found
  · exact List.getElem?_concat_length

/-- The domain finds an element under the number that the builder keeps for it. -/
theorem indexOf?_freeze (builder : Builder ε) (e : ε) :
    builder.freeze.indexOf? e = builder.index.get? e := by
  ext i
  rw [indexOf?_eq_some_iff, builder.inStep]
  rfl

theorem freeze_insert (builder : Builder ε) (e : ε) :
    (builder.insert e).2.freeze = builder.freeze.insert e := by
  have same : (builder.insert e).2.elements = (builder.freeze.insert e).elements :=
    (builder.elements_insert e).trans (builder.freeze.elements_insert e).symm
  rw [freeze]
  simp only [same]

theorem freeze_insertAll (builder : Builder ε) (elements : List ε) :
    (builder.insertAll elements).2.freeze = builder.freeze.insertAll elements := by
  induction elements generalizing builder with
  | nil => rfl
  | cons e rest ih =>
    change ((builder.insert e).2.insertAll rest).2.freeze = (builder.freeze.insert e).insertAll rest
    rw [ih, freeze_insert]

end Builder

end Domain

end Dataflow
