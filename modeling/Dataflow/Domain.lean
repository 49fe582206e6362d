import Dataflow.Fact.Lemmas

/-! Numbered elements. A domain lists each element once, in order of first insertion, and
an element's number is its place in that list; facts over the domain are as wide as it. -/
namespace Dataflow

structure Domain (ε : Type) where
  elements : List ε
  distinct : elements.Nodup
  deriving DecidableEq

namespace Domain

variable {ε : Type}

def empty : Domain ε := ⟨[], List.nodup_nil⟩

def size (domain : Domain ε) : Nat := domain.elements.length

def isEmpty (domain : Domain ε) : Bool := domain.elements.isEmpty

def element? (domain : Domain ε) (i : Nat) : Option ε := domain.elements[i]?

def emptyFact (domain : Domain ε) : Fact := Fact.empty domain.size

def fullFact (domain : Domain ε) : Fact := Fact.full domain.size

@[simp] theorem width_emptyFact (domain : Domain ε) : domain.emptyFact.width = domain.size := rfl

@[simp] theorem width_fullFact (domain : Domain ε) : domain.fullFact.width = domain.size := rfl

/-- The elements of a fact in the order of their numbers. -/
def decode (domain : Domain ε) (fact : Fact) : Except Fault (List ε) :=
  if fact.width ≤ domain.size then .ok (fact.toList.filterMap domain.element?)
  else .error (.decodeWidth fact.width domain.size)

theorem mem_decode {domain : Domain ε} {fact : Fact} {elements : List ε}
    (decoded : domain.decode fact = .ok elements) (e : ε) :
    e ∈ elements ↔ ∃ i ∈ fact, domain.element? i = some e := by
  unfold decode at decoded
  split at decoded
  · simp only [Except.ok.injEq] at decoded
    simp [← decoded, List.mem_filterMap]
  · contradiction

variable [DecidableEq ε]

def indexOf? (domain : Domain ε) (e : ε) : Option Nat := domain.elements.idxOf? e

def contains (domain : Domain ε) (e : ε) : Bool := decide (e ∈ domain.elements)

/-- An element that is present keeps its number; a new one gets the next. -/
def insert (domain : Domain ε) (e : ε) : Domain ε :=
  if present : e ∈ domain.elements then domain
  else
    { elements := domain.elements ++ [e]
      distinct := by
        rw [List.nodup_append]
        refine ⟨domain.distinct, by simp, ?_⟩
        intro x member _ last same
        simp only [List.mem_singleton] at last
        exact present (last ▸ same ▸ member) }

def insertAll (domain : Domain ε) (elements : List ε) : Domain ε := elements.foldl insert domain

def ofList (elements : List ε) : Domain ε := empty.insertAll elements

/-- Elements outside the domain are passed over. -/
def factOf (domain : Domain ε) (elements : List ε) : Fact :=
  (elements.filterMap domain.indexOf?).foldl Fact.mark domain.emptyFact

@[simp] theorem width_factOf (domain : Domain ε) (elements : List ε) :
    (domain.factOf elements).width = domain.size := Fact.width_foldl_mark _ _

theorem elements_insert (domain : Domain ε) (e : ε) :
    (domain.insert e).elements =
      if e ∈ domain.elements then domain.elements else domain.elements ++ [e] := by
  unfold insert
  split <;> rfl

theorem mem_insert (domain : Domain ε) (e x : ε) :
    x ∈ (domain.insert e).elements ↔ x ∈ domain.elements ∨ x = e := by
  unfold insert
  split
  · next present =>
    constructor
    · exact Or.inl
    · rintro (member | rfl)
      · exact member
      · exact present
  · simp

theorem mem_insertAll (domain : Domain ε) (elements : List ε) (x : ε) :
    x ∈ (domain.insertAll elements).elements ↔ x ∈ domain.elements ∨ x ∈ elements := by
  induction elements generalizing domain with
  | nil => simp [insertAll]
  | cons e rest induction =>
    have step : domain.insertAll (e :: rest) = (domain.insert e).insertAll rest := rfl
    rw [step, induction, mem_insert, List.mem_cons, or_assoc]

/-- Growing a domain keeps the numbers given so far. -/
theorem insert_elements_prefix (domain : Domain ε) (e : ε) :
    domain.elements <+: (domain.insert e).elements := by
  unfold insert
  split
  · exact List.prefix_rfl
  · exact List.prefix_append _ _

theorem insertAll_elements_prefix (domain : Domain ε) (elements : List ε) :
    domain.elements <+: (domain.insertAll elements).elements := by
  induction elements generalizing domain with
  | nil => exact List.prefix_rfl
  | cons e rest induction =>
    exact (domain.insert_elements_prefix e).trans (induction (domain.insert e))

theorem indexOf?_eq_some_iff (domain : Domain ε) (e : ε) (i : Nat) :
    domain.indexOf? e = some i ↔ domain.element? i = some e := by
  simp only [indexOf?, element?, List.idxOf?, List.findIdx?_eq_some_iff_getElem,
    List.getElem?_eq_some_iff]
  constructor
  · rintro ⟨bound, here, _⟩
    exact ⟨bound, by simpa using here⟩
  · rintro ⟨bound, here⟩
    refine ⟨bound, by simpa using here, ?_⟩
    intro j less
    have different := List.pairwise_iff_getElem.mp domain.distinct j i (by omega) bound less
    simpa [here] using different

theorem eq_of_indexOf? {domain : Domain ε} {first second : ε} {i : Nat}
    (placeFirst : domain.indexOf? first = some i) (placeSecond : domain.indexOf? second = some i) :
    first = second := by
  rw [indexOf?_eq_some_iff] at placeFirst placeSecond
  exact Option.some.inj (placeFirst.symm.trans placeSecond)

theorem indexOf?_isSome_iff (domain : Domain ε) (e : ε) :
    (domain.indexOf? e).isSome ↔ e ∈ domain.elements := by
  simp [indexOf?]

theorem lt_size_of_indexOf? {domain : Domain ε} {e : ε} {i : Nat}
    (found : domain.indexOf? e = some i) : i < domain.size := by
  rw [indexOf?_eq_some_iff] at found
  exact (List.getElem?_eq_some_iff.mp found).1

theorem mem_factOf (domain : Domain ε) (elements : List ε) (i : Nat) :
    i ∈ domain.factOf elements ↔ ∃ e ∈ elements, domain.indexOf? e = some i := by
  rw [factOf, Fact.mem_foldl_mark, List.mem_filterMap]
  constructor
  · rintro (member | ⟨found, _⟩)
    · exact absurd member (Fact.not_mem_empty _ _)
    · exact found
  · rintro ⟨e, member, found⟩
    exact Or.inr ⟨⟨e, member, found⟩, lt_size_of_indexOf? found⟩

end Domain

end Dataflow
