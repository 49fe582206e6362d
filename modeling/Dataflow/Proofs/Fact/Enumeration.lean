import Dataflow.Fact.Lemmas
import Mathlib.Data.List.Dedup
import Mathlib.Data.List.Sort

/-! Enumerating a fact, one call of `next` after the other. From wherever a cursor stands, a call
answers the head of the list that is left and leaves its tail, so the calls answer the members in
ascending order and then nothing, however often they are repeated. Positions put into a fact come
out sorted and without repetitions, and a fact is made again from the positions it lists. -/
namespace Dataflow.Fact

namespace Cursor

/-- What `next` answers when it has been called `n` times before. -/
def answer : Nat → Cursor → Option Nat
  | 0, cursor => cursor.next.1
  | n + 1, cursor => answer n cursor.next.2

/-- An ascending list is told by its members, so no bound on the steps shows in it. -/
theorem Lists.unique {cursor : Cursor} {first second : List Nat} (one : cursor.Lists first)
    (other : cursor.Lists second) : first = second :=
  one.ascending.eq_of_mem_iff other.ascending fun i => (one.members i).trans (other.members i).symm

theorem toList_of_next_none {cursor after : Cursor} (ended : cursor.next = (none, after)) :
    cursor.toList = [] :=
  cursor.lists_toList.unique (lists_nil ended)

theorem toList_of_next_some {cursor after : Cursor} {i : Nat}
    (found : cursor.next = (some i, after)) : cursor.toList = i :: after.toList :=
  cursor.lists_toList.unique (after.lists_toList.cons found)

/-- One call answers the head of the list and leaves its tail. At the end both lists are empty: a
cursor that has answered nothing stays where it is. -/
theorem next_toList (cursor : Cursor) :
    cursor.next.1 = cursor.toList.head? ∧ cursor.next.2.toList = cursor.toList.tail := by
  rcases result : cursor.next with ⟨_ | i, after⟩
  · have stays : after.next = (none, after) := (scan_none result).2.2
    rw [toList_of_next_none result, toList_of_next_none stays]
    exact ⟨rfl, rfl⟩
  · rw [toList_of_next_some result]
    exact ⟨rfl, rfl⟩

theorem answer_eq_getElem? (cursor : Cursor) (n : Nat) : cursor.answer n = cursor.toList[n]? := by
  induction n generalizing cursor with
  | zero => rw [answer, cursor.next_toList.1, List.head?_eq_getElem?]
  | succ n ih => rw [answer, ih, cursor.next_toList.2, List.getElem?_tail]

end Cursor

theorem contains_eq_true {fact : Fact} {i : Nat} : fact.contains i = .ok true ↔ i ∈ fact := by
  by_cases inside : i < fact.width
  · simp [contains, inside]
  · simp [contains, inside, mt lt_width inside]

/-- Positions come out sorted and without repetitions. -/
theorem toList_ofIndices {width : Nat} {indices : List Nat} (inside : ∀ i ∈ indices, i < width) :
    ∃ fact, ofIndices width indices = .ok fact ∧
      fact.toList = indices.dedup.insertionSort (· ≤ ·) := by
  obtain ⟨fact, made, _, members⟩ := @insertAll_of_lt (empty width) indices inside
  have distinct : (indices.dedup.insertionSort (· ≤ ·)).Nodup :=
    (List.perm_insertionSort _ _).nodup_iff.mpr indices.nodup_dedup
  have ascending := List.sortedLE_insertionSort.sortedLT_of_nodup distinct
  refine ⟨fact, made, fact.toList_pairwise.eq_of_mem_iff ascending.pairwise fun i => ?_⟩
  rw [mem_toList, members, List.mem_insertionSort, List.mem_dedup]
  exact or_iff_right (not_mem_empty width i)

/-- A fact is made again from the positions it lists. -/
theorem ofIndices_toList (fact : Fact) : ofIndices fact.width fact.toList = .ok fact := by
  have inside : ∀ i ∈ fact.toList, i < fact.width := fun i listed =>
    lt_width ((mem_toList fact i).mp listed)
  obtain ⟨again, made, width, members⟩ := @insertAll_of_lt (empty fact.width) _ inside
  have same : again = fact := ext_mem width fun i => by
    rw [members, mem_toList]
    exact or_iff_right (not_mem_empty fact.width i)
  exact same ▸ made

/-- The calls of `next` answer what the fact contains in ascending order, as often as it counts, and
nothing from then on; `toList` is the list of the answers, from which the fact can be made again. -/
structure Enumerated (fact : Fact) : Prop where
  ended : ∀ n, fact.cursor.answer n = none ↔ fact.count ≤ n
  contained : ∀ i, (∃ n, fact.cursor.answer n = some i) ↔ fact.contains i = .ok true
  ascending : ∀ m n i j, m < n →
    fact.cursor.answer m = some i → fact.cursor.answer n = some j → i < j
  listed : ∀ n, fact.cursor.answer n = fact.toList[n]?
  restored : ofIndices fact.width fact.toList = .ok fact

theorem enumerated (fact : Fact) : fact.Enumerated where
  ended := fun n => by
    rw [Cursor.answer_eq_getElem?, List.getElem?_eq_none_iff, ← fact.length_toList]
    rfl
  contained := fun i => by
    rw [contains_eq_true, ← mem_toList, List.mem_iff_getElem?]
    simp only [Cursor.answer_eq_getElem?]
    rfl
  ascending := by
    intro m n i j less first second
    rw [Cursor.answer_eq_getElem?] at first second
    obtain ⟨_, rfl⟩ := List.getElem?_eq_some_iff.mp first
    obtain ⟨_, rfl⟩ := List.getElem?_eq_some_iff.mp second
    exact List.pairwise_iff_getElem.mp fact.toList_pairwise m n _ _ less
  listed := fact.cursor.answer_eq_getElem?
  restored := fact.ofIndices_toList

/-- Every fact is enumerated by the calls of `next`, and positions below the width, in any order and
repeated at will, are enumerated sorted and once each. -/
theorem cursor_enumerates_members : (∀ fact : Fact, fact.Enumerated) ∧
    ∀ (width : Nat) (indices : List Nat), (∀ i ∈ indices, i < width) →
      ∃ fact, ofIndices width indices = .ok fact ∧
        fact.toList = indices.dedup.insertionSort (· ≤ ·) :=
  ⟨enumerated, fun _ _ => toList_ofIndices⟩

/-- Three zero words lie between positions in the first word and in the last, which is not full. -/
theorem cursor_enumerates_across_zeros : (∀ i ∈ [299, 63, 0, 299, 63], i < 300) ∧
    ∃ fact, ofIndices 300 [299, 63, 0, 299, 63] = .ok fact ∧ fact.toList = [0, 63, 299] ∧
      fact.Enumerated := by
  have inside : ∀ i ∈ [299, 63, 0, 299, 63], i < 300 := by decide
  obtain ⟨fact, made, listed⟩ := cursor_enumerates_members.2 300 _ inside
  have sorted : [299, 63, 0, 299, 63].dedup.insertionSort (· ≤ ·) = [0, 63, 299] := by decide
  exact ⟨inside, fact, made, listed.trans sorted, cursor_enumerates_members.1 fact⟩

end Dataflow.Fact
