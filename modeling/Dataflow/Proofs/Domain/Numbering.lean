import Dataflow.Domain.Builder
import Mathlib.Data.List.Sort

/-! Numbers and codes of elements. However elements are inserted, repeated ones too, the domain lists
each once where it first came, an element's number is its place, and every insertion has answered
with that number. Facts as wide as the domain are codes of its sets of elements: decoding lists a set
in the order of the numbers, and encoding what was decoded gives the fact back. -/
namespace Dataflow

/-- A fact lists the numbers below its width that belong to it. -/
theorem Fact.toList_eq_filter {fact : Fact} {bound : Nat} (narrow : fact.width ≤ bound) :
    fact.toList = (List.range bound).filter (· ∈ fact) := by
  refine fact.toList_pairwise.eq_of_mem_iff (List.pairwise_lt_range.filter _) fun i => ?_
  rw [mem_toList, List.mem_filter, List.mem_range, decide_eq_true_eq]
  exact ⟨fun member => ⟨(lt_width member).trans_le narrow, member⟩, And.right⟩

namespace Domain

variable {ε : Type}

theorem filterMap_element? (domain : Domain ε) :
    (List.range domain.size).filterMap domain.element? = domain.elements := by
  unfold size
  change (List.range domain.elements.length).filterMap (fun i => domain.elements[i]?) = _
  induction domain.elements with
  | nil => rfl
  | cons e rest ih =>
    rw [List.length_cons, List.range_succ_eq_map, List.filterMap_cons_some List.getElem?_cons_zero,
      List.filterMap_map]
    exact congrArg (e :: ·) ih

variable [DecidableEq ε]

def Coded (domain : Domain ε) (fact : Fact) (e : ε) : Prop :=
  ∃ i ∈ domain.indexOf? e, i ∈ fact

instance (domain : Domain ε) (fact : Fact) (e : ε) : Decidable (domain.Coded fact e) :=
  inferInstanceAs (Decidable (∃ _ ∈ domain.indexOf? e, _))

theorem coded_iff {domain : Domain ε} {fact : Fact} {e : ε} {i : Nat}
    (found : domain.indexOf? e = some i) : domain.Coded fact e ↔ i ∈ fact := by
  simp [Coded, found]

/-- Decoding lists the elements whose numbers belong to the fact, in the order of the numbers. -/
theorem decode_eq_filter (domain : Domain ε) {fact : Fact} (narrow : fact.width ≤ domain.size) :
    domain.decode fact = .ok (domain.elements.filter fun e => domain.Coded fact e) := by
  have listed : domain.elements.filter (fun e => domain.Coded fact e) =
      (List.range domain.size).filterMap fun i =>
        (domain.element? i).filter fun e => domain.Coded fact e := by
    rw [← List.filter_filterMap, filterMap_element?]
  rw [decode, if_pos narrow, Fact.toList_eq_filter narrow, List.filterMap_filter, listed]
  congr 2
  funext i
  cases found : domain.element? i with
  | none => simp
  | some e =>
    have coded : domain.Coded fact e ↔ i ∈ fact :=
      coded_iff ((domain.indexOf?_eq_some_iff e i).mpr found)
    simp [Option.filter, coded]

theorem decode_factOf (domain : Domain ε) (elements : List ε) :
    domain.decode (domain.factOf elements) = .ok (domain.elements.filter (· ∈ elements)) := by
  rw [domain.decode_eq_filter (domain.width_factOf elements).le]
  congr 1
  refine List.filter_congr fun e listed => decide_eq_decide.mpr ?_
  obtain ⟨i, found⟩ := Option.isSome_iff_exists.mp ((domain.indexOf?_isSome_iff e).mpr listed)
  rw [coded_iff found, mem_factOf]
  constructor
  · rintro ⟨other, member, same⟩
    exact eq_of_indexOf? same found ▸ member
  · exact fun member => ⟨e, member, found⟩

theorem factOf_decode (domain : Domain ε) {fact : Fact} (sized : fact.width = domain.size) :
    ∃ elements, domain.decode fact = .ok elements ∧ domain.factOf elements = fact := by
  have decoded := domain.decode_eq_filter sized.le
  refine ⟨_, decoded, Fact.ext_mem ?_ fun i => ?_⟩
  · rw [width_factOf, sized]
  · simp only [mem_factOf, mem_decode decoded, indexOf?_eq_some_iff]
    constructor
    · rintro ⟨e, ⟨j, member, there⟩, here⟩
      rw [← indexOf?_eq_some_iff] at there here
      cases there.symm.trans here
      exact member
    · intro member
      have bound : i < domain.elements.length := (Fact.lt_width member).trans_eq sized
      exact ⟨_, ⟨i, member, List.getElem?_eq_getElem bound⟩, List.getElem?_eq_getElem bound⟩

theorem elements_insertAll (domain : Domain ε) (inserted : List ε) :
    (domain.insertAll inserted).elements =
      domain.elements ++ (inserted.filter (· ∉ domain.elements)).eraseDups := by
  induction inserted generalizing domain with
  | nil => simp [insertAll]
  | cons e rest ih =>
    change ((domain.insert e).insertAll rest).elements = _
    rw [ih, elements_insert]
    by_cases present : e ∈ domain.elements
    · simp [present]
    · simp only [present, if_false, not_false_eq_true, decide_true, List.filter_cons_of_pos,
        List.eraseDups_cons, List.append_assoc, List.singleton_append, List.filter_filter]
      congr 4
      funext x
      by_cases same : x = e <;> simp [same]

structure Numbers (domain : Domain ε) (inserted : List ε) : Prop where
  elements : domain.elements = inserted.eraseDups
  numbered : ∀ e, (domain.indexOf? e).isSome ↔ e ∈ inserted
  bounded : ∀ i, (domain.element? i).isSome ↔ i < domain.size
  inverse : ∀ e i, domain.indexOf? e = some i ↔ domain.element? i = some e

theorem numbers_ofList (inserted : List ε) : (ofList inserted).Numbers inserted where
  elements := by
    rw [ofList, elements_insertAll]
    simp [empty]
  numbered := by
    intro e
    rw [indexOf?_isSome_iff, ofList, mem_insertAll]
    simp [empty]
  bounded := by simp [element?, size]
  inverse := (ofList inserted).indexOf?_eq_some_iff

namespace Builder

/-- Later insertions leave an element where it is. -/
theorem element?_insertAll (builder : Builder ε) (later : List ε) {e : ε} {i : Nat}
    (here : builder.elements[i]? = some e) :
    (builder.insertAll later).2.freeze.element? i = some e := by
  obtain ⟨others, whole⟩ := builder.freeze.insertAll_elements_prefix later
  rw [freeze_insertAll, element?, ← whole]
  exact List.getElem?_append_left (List.getElem?_eq_some_iff.mp here).1 ▸ here

/-- Every insertion has answered with the number that its element has in the end. -/
theorem answers_insertAll (builder : Builder ε) (inserted : List ε) :
    (builder.insertAll inserted).1.map some =
      inserted.map (builder.insertAll inserted).2.freeze.indexOf? := by
  induction inserted generalizing builder with
  | nil => rfl
  | cons e rest ih =>
    have place := (builder.insert e).2.element?_insertAll rest (builder.getElem?_insert e)
    rw [← indexOf?_eq_some_iff] at place
    exact congrArg₂ List.cons place.symm (ih (builder.insert e).2)

end Builder

structure Codes (domain : Domain ε) : Prop where
  decode_factOf : ∀ elements, domain.decode (domain.factOf elements) =
    .ok (domain.elements.filter (· ∈ elements))
  factOf_decode : ∀ fact, fact.width = domain.size →
    ∃ elements, domain.decode fact = .ok elements ∧ domain.factOf elements = fact

end Domain

end Dataflow
