import Dataflow.Proofs.Fact.Order
import Dataflow.Proofs.Fallible
import Mathlib.Algebra.Order.Floor.Div
import Mathlib.Data.Finset.Union

/-! Facts stand for finite sets. Operations on facts, taken one after the other on a row of facts,
do to their members what the operations of the same names do to sets, and answer that something
has changed exactly when a set has. The words carry nothing else: they are as many as the width
needs, no bit is set beyond it, and equal words are equal sets. -/
namespace Dataflow.Fact

def members (fact : Fact) : Finset Nat := (Finset.range fact.width).filter (· ∈ fact)

@[simp] theorem mem_members {fact : Fact} {i : Nat} : i ∈ fact.members ↔ i ∈ fact := by
  rw [members, Finset.mem_filter, Finset.mem_range]
  exact ⟨And.right, fun member => ⟨lt_width member, member⟩⟩

theorem eq_iff_members {left right : Fact} (same : left.width = right.width) :
    left = right ↔ left.members = right.members := by
  refine ⟨congrArg members, fun equal => ext_mem same fun i => ?_⟩
  rw [← mem_members, equal, mem_members]

/-! What each operation does to the members. -/

@[simp] theorem members_empty (width : Nat) : (empty width).members = ∅ := by
  ext i
  simp

@[simp] theorem members_full (width : Nat) : (full width).members = Finset.range width := by
  ext i
  simp

theorem members_mark {fact : Fact} {i : Nat} (inside : i < fact.width) :
    (fact.mark i).members = Insert.insert i fact.members := by
  ext j
  simp [inside, or_comm]

theorem members_unmark (fact : Fact) (i : Nat) : (fact.unmark i).members = fact.members.erase i := by
  ext j
  simp [and_comm]

theorem members_join {left right : Fact} (same : left.width = right.width) :
    (left.join right same).members = left.members ∪ right.members := by
  ext i
  simp

theorem members_common {left right : Fact} (same : left.width = right.width) :
    (left.common right same).members = left.members ∩ right.members := by
  ext i
  simp

theorem members_without {left right : Fact} (same : left.width = right.width) :
    (left.without right same).members = left.members \ right.members := by
  ext i
  simp

/-! How the questions asked of facts are answered. -/

theorem count_eq_card (fact : Fact) : fact.count = fact.members.card := by
  have listed : fact.members = fact.toList.toFinset := by
    ext i
    simp
  rw [listed, List.toFinset_card_of_nodup fact.toList_nodup, length_toList]

theorem isEmpty_eq (fact : Fact) : fact.isEmpty = decide (fact.members = ∅) := by
  rw [Bool.eq_iff_iff, isEmpty_iff, decide_eq_true_eq, Finset.eq_empty_iff_forall_notMem]
  simp

theorem isSubset_eq {left right : Fact} (same : left.width = right.width) :
    left.isSubset right = .ok (decide (left.members ⊆ right.members)) := by
  obtain ⟨answer, asked, meaning⟩ := isSubset_of_width_eq same
  rw [asked, Except.ok.injEq, Bool.eq_iff_iff, meaning, decide_eq_true_eq]
  simp [Finset.subset_iff]

structure Stands (fact : Fact) : Prop where
  stored : fact.words.length = fact.width ⌈/⌉ 64
  padding : ∀ i, fact.width ≤ i → Words.bit fact.words i = false
  contains : ∀ i < fact.width, fact.contains i = .ok (decide (i ∈ fact.members))
  count : fact.count = fact.members.card
  isEmpty : fact.isEmpty = decide (fact.members = ∅)

theorem stands (fact : Fact) : fact.Stands where
  stored := by
    rw [fact.stored, Words.length, Nat.ceilDiv_eq_add_pred_div, Nat.add_sub_assoc (by decide)]
  padding := fact.padding
  contains := fun i inside => by simp [Fact.contains, inside]
  count := fact.count_eq_card
  isEmpty := fact.isEmpty_eq

structure Compares (left right : Fact) : Prop where
  isSubset : left.isSubset right = .ok (decide (left.members ⊆ right.members))
  equal : left = right ↔ left.members = right.members
  words : left.words = right.words ↔ left.members = right.members

theorem compares {left right : Fact} (same : left.width = right.width) : left.Compares right where
  isSubset := isSubset_eq same
  equal := eq_iff_members same
  words := by
    rw [← eq_iff_members same]
    refine ⟨fun words => ?_, congrArg Fact.words⟩
    exact ext_mem same fun i => by rw [mem_def, mem_def, words]

/-! Operations on a row of facts. A fact is named by its place in the row; new facts are put at the
end. -/

@[ext] structure Positions where
  width : Nat
  members : Finset Nat

-- A derived instance would transport along equations of sets, which do not compute.
instance : DecidableEq Positions := fun left right =>
  decidable_of_iff (left.width = right.width ∧ left.members = right.members)
    Positions.ext_iff.symm

def positions (fact : Fact) : Positions := ⟨fact.width, fact.members⟩

theorem positions_eq {fact : Fact} {width : Nat} {set : Finset Nat} (sized : fact.width = width)
    (same : fact.members = set) : fact.positions = ⟨width, set⟩ := by
  rw [positions, sized, same]

inductive Pairing where
  | union
  | inter
  | diff
  deriving DecidableEq, Repr

def Pairing.facts : Pairing → Fact → Fact → Except Fault (Fact × Bool)
  | union => Fact.union
  | inter => Fact.inter
  | diff => Fact.diff

def Pairing.sets : Pairing → Finset Nat → Finset Nat → Finset Nat
  | union, left, right => left ∪ right
  | inter, left, right => left ∩ right
  | diff, left, right => left \ right

inductive Source where
  | empty (width : Nat)
  | full (width : Nat)
  | ofIndices (width : Nat) (indices : List Nat)
  | unionOf (width : Nat) (places : List Nat)
  | interOf (width : Nat) (places : List Nat)
  deriving DecidableEq, Repr

inductive Edit where
  | insert (i : Nat)
  | erase (i : Nat)
  | clear
  | fill
  | pair (pairing : Pairing) (place : Nat)
  deriving DecidableEq, Repr

inductive Operation where
  | make (source : Source)
  | edit (place : Nat) (action : Edit)
  deriving DecidableEq, Repr

def atPlace (row : List Fact) (place : Nat) : Except Fault Fact :=
  match row[place]? with
  | some fact => .ok fact
  | none => .error (.outsideTable row.length place)

def Source.onFacts (row : List Fact) : Source → Except Fault Fact
  | empty width => .ok (Fact.empty width)
  | full width => .ok (Fact.full width)
  | ofIndices width indices => Fact.ofIndices width indices
  | unionOf width places => do Fact.unionOf width (← places.mapM (atPlace row))
  | interOf width places => do Fact.interOf width (← places.mapM (atPlace row))

def Edit.onFacts (row : List Fact) (fact : Fact) : Edit → Except Fault (Fact × Option Bool)
  | insert i => do
    let (next, changed) ← fact.insert i
    return (next, some changed)
  | erase i => do
    let (next, changed) ← fact.erase i
    return (next, some changed)
  | clear => return (fact.clear, none)
  | fill => return (fact.fill, none)
  | pair pairing place => do
    let (next, changed) ← pairing.facts fact (← atPlace row place)
    return (next, some changed)

def Operation.onFacts (row : List Fact) : Operation → Except Fault (Option Bool × List Fact)
  | make source => do return (none, row ++ [← source.onFacts row])
  | edit place action => do
    let (next, answer) ← action.onFacts row (← atPlace row place)
    return (answer, row.set place next)

def runOnFacts (row : List Fact) : List Operation → Except Fault (List (Option Bool) × List Fact)
  | [] => return ([], row)
  | operation :: rest => do
    let (answer, next) ← operation.onFacts row
    let (answers, last) ← runOnFacts next rest
    return (answer :: answers, last)

/-! The same operations on sets. -/

def membersAt (row : List Positions) (place : Nat) : Finset Nat :=
  (row[place]?.map Positions.members).getD ∅

def Source.onSets (row : List Positions) : Source → Positions
  | empty width => ⟨width, ∅⟩
  | full width => ⟨width, Finset.range width⟩
  | ofIndices width indices => ⟨width, indices.toFinset⟩
  | unionOf width places => ⟨width, places.toFinset.biUnion (membersAt row)⟩
  | interOf width places =>
    ⟨width, (Finset.range width).filter fun i => ∀ place ∈ places, i ∈ membersAt row place⟩

def Edit.onSets (row : List Positions) (set : Positions) : Edit → Finset Nat
  | insert i => Insert.insert i set.members
  | erase i => set.members.erase i
  | clear => ∅
  | fill => Finset.range set.width
  | pair pairing place => pairing.sets set.members (membersAt row place)

/-- Clearing and filling answer nothing; the other operations answer whether the set is another. -/
def Edit.answer (row : List Positions) (set : Positions) : Edit → Option Bool
  | clear | fill => none
  | action => some (decide (action.onSets row set ≠ set.members))

def Operation.onSets (row : List Positions) : Operation → Option Bool × List Positions
  | make source => (none, row ++ [source.onSets row])
  | edit place action =>
    match row[place]? with
    | some set => (action.answer row set, row.set place ⟨set.width, action.onSets row set⟩)
    | none => (none, row)

def runOnSets (row : List Positions) : List Operation → List (Option Bool) × List Positions
  | [] => ([], row)
  | operation :: rest =>
    let (answer, next) := operation.onSets row
    let (answers, last) := runOnSets next rest
    (answer :: answers, last)

/-! Positions lie below the width, and facts that meet have one width. -/

def HasWidth (row : List Positions) (width place : Nat) : Prop :=
  row[place]?.map Positions.width = some width

def Source.Fits (row : List Positions) : Source → Prop
  | empty _ | full _ => True
  | ofIndices width indices => ∀ i ∈ indices, i < width
  | unionOf width places | interOf width places => ∀ place ∈ places, HasWidth row width place

def Edit.Fits (row : List Positions) (width : Nat) : Edit → Prop
  | insert i | erase i => i < width
  | clear | fill => True
  | pair _ place => HasWidth row width place

def Operation.Fits (row : List Positions) : Operation → Prop
  | make source => source.Fits row
  | edit place action => ∃ set ∈ row[place]?, action.Fits row set.width

def Fit (row : List Positions) : List Operation → Prop
  | [] => True
  | operation :: rest => operation.Fits row ∧ Fit (operation.onSets row).2 rest

def factAt (row : List Fact) (place : Nat) : Fact := row[place]?.getD (empty 0)

theorem membersAt_map (row : List Fact) (place : Nat) :
    membersAt (row.map positions) place = (factAt row place).members := by
  simp only [membersAt, factAt, List.getElem?_map, Option.map_map]
  cases row[place]? with
  | none => exact (members_empty 0).symm
  | some fact => rfl

theorem atPlace_of_hasWidth {row : List Fact} {width place : Nat}
    (sized : HasWidth (row.map positions) width place) :
    atPlace row place = .ok (factAt row place) ∧ (factAt row place).width = width := by
  rw [HasWidth, List.getElem?_map, Option.map_map] at sized
  obtain ⟨fact, found, rfl⟩ := Option.map_eq_some_iff.mp sized
  simp [atPlace, factAt, found, positions]

theorem mapM_atPlace {row : List Fact} {width : Nat} {places : List Nat}
    (sized : ∀ place ∈ places, HasWidth (row.map positions) width place) :
    places.mapM (atPlace row) = .ok (places.map (factAt row)) ∧
      ∀ fact ∈ places.map (factAt row), fact.width = width := by
  have found := fun place listed => atPlace_of_hasWidth (sized place listed)
  refine ⟨Fallible.mapM_eq_map fun place listed => (found place listed).1, ?_⟩
  exact List.forall_mem_map.mpr fun place listed => (found place listed).2

theorem Source.onFacts_eq {row : List Fact} {source : Source}
    (fits : source.Fits (row.map positions)) : ∃ fact, source.onFacts row = .ok fact ∧
      fact.positions = source.onSets (row.map positions) := by
  cases source with
  | empty width => exact ⟨_, rfl, positions_eq rfl (members_empty width)⟩
  | full width => exact ⟨_, rfl, positions_eq rfl (members_full width)⟩
  | ofIndices width indices =>
    obtain ⟨fact, run, sized, members⟩ := @insertAll_of_lt (Fact.empty width) indices fits
    refine ⟨fact, run, positions_eq sized ?_⟩
    ext i
    simp [members]
  | unionOf width places =>
    obtain ⟨read, same⟩ := mapM_atPlace fits
    obtain ⟨fact, run, sized, members⟩ := unionOf_of_width same
    refine ⟨fact, Fallible.bind_eq_ok.mpr ⟨_, read, run⟩, positions_eq sized ?_⟩
    ext i
    simp [members, membersAt_map]
  | interOf width places =>
    obtain ⟨read, same⟩ := mapM_atPlace fits
    obtain ⟨fact, run, sized, members⟩ := interOf_of_width same
    refine ⟨fact, Fallible.bind_eq_ok.mpr ⟨_, read, run⟩, positions_eq sized ?_⟩
    ext i
    simp [members, membersAt_map]

theorem Pairing.facts_eq (pairing : Pairing) {left right : Fact} (same : left.width = right.width) :
    ∃ next, pairing.facts left right = .ok (next, decide (next ≠ left)) ∧ next.width = left.width ∧
      next.members = pairing.sets left.members right.members := by
  cases pairing with
  | union => exact ⟨left.join right same, combine_of_width same, rfl, members_join same⟩
  | inter => exact ⟨left.common right same, combine_of_width same, rfl, members_common same⟩
  | diff => exact ⟨left.without right same, combine_of_width same, rfl, members_without same⟩

theorem Edit.onFacts_eq {row : List Fact} {fact : Fact} {action : Edit}
    (fits : action.Fits (row.map positions) fact.width) : ∃ next,
      action.onFacts row fact = .ok (next, action.answer (row.map positions) fact.positions) ∧
      next.positions = ⟨fact.width, action.onSets (row.map positions) fact.positions⟩ := by
  cases action with
  | insert i =>
    have inside : i < fact.width := fits
    refine ⟨fact.mark i, ?_, positions_eq (width_mark fact i) (members_mark inside)⟩
    refine Fallible.bind_eq_ok.mpr ⟨_, if_pos inside, ?_⟩
    simp [Edit.answer, Edit.onSets, positions, pure, Except.pure]
  | erase i =>
    have inside : i < fact.width := fits
    refine ⟨fact.unmark i, ?_, positions_eq rfl (members_unmark fact i)⟩
    refine Fallible.bind_eq_ok.mpr ⟨_, if_pos inside, ?_⟩
    simp [Edit.answer, Edit.onSets, positions, pure, Except.pure]
  | clear => exact ⟨_, rfl, positions_eq rfl (members_empty fact.width)⟩
  | fill => exact ⟨_, rfl, positions_eq rfl (members_full fact.width)⟩
  | pair pairing place =>
    obtain ⟨found, same⟩ := atPlace_of_hasWidth fits
    obtain ⟨next, run, sized, members⟩ := pairing.facts_eq same.symm
    rw [← membersAt_map] at members
    refine ⟨next, ?_, positions_eq sized members⟩
    refine Fallible.bind_eq_ok.mpr ⟨_, found, Fallible.bind_eq_ok.mpr ⟨_, run, ?_⟩⟩
    -- The flag compares facts, and facts of one width are compared as their members.
    simp only [Edit.answer, Edit.onSets, positions, ← members, ne_eq, eq_iff_members sized]
    rfl

theorem Operation.onFacts_eq {row : List Fact} {operation : Operation}
    (fits : operation.Fits (row.map positions)) : ∃ next,
      operation.onFacts row = .ok ((operation.onSets (row.map positions)).1, next) ∧
      next.map positions = (operation.onSets (row.map positions)).2 := by
  cases operation with
  | make source =>
    obtain ⟨fact, run, same⟩ := Source.onFacts_eq fits
    refine ⟨row ++ [fact], Fallible.bind_eq_ok.mpr ⟨_, run, rfl⟩, ?_⟩
    simp [Operation.onSets, same]
  | edit place action =>
    obtain ⟨set, stored, fits⟩ := fits
    rw [Option.mem_def, List.getElem?_map] at stored
    obtain ⟨fact, found, rfl⟩ := Option.map_eq_some_iff.mp stored
    obtain ⟨next, run, same⟩ := Edit.onFacts_eq fits
    have here : atPlace row place = .ok fact := by simp only [atPlace, found]
    simp only [Operation.onSets, List.getElem?_map, found, Option.map_some]
    refine ⟨row.set place next, ?_, ?_⟩
    · exact Fallible.bind_eq_ok.mpr ⟨_, here, Fallible.bind_eq_ok.mpr ⟨_, run, rfl⟩⟩
    · rw [List.map_set, same]
      rfl

theorem runOnFacts_eq {row : List Fact} {operations : List Operation}
    (fit : Fit (row.map positions) operations) : ∃ last,
      runOnFacts row operations = .ok ((runOnSets (row.map positions) operations).1, last) ∧
      last.map positions = (runOnSets (row.map positions) operations).2 := by
  induction operations generalizing row with
  | nil => exact ⟨row, rfl, rfl⟩
  | cons operation rest ih =>
    obtain ⟨fits, fit⟩ := fit
    obtain ⟨next, step, same⟩ := Operation.onFacts_eq fits
    rw [← same] at fit
    obtain ⟨last, run, ended⟩ := ih fit
    rw [same] at run ended
    exact ⟨last, Fallible.bind_eq_ok.mpr ⟨_, step, Fallible.bind_eq_ok.mpr ⟨_, run, rfl⟩⟩, ended⟩

/-- Operations whose positions lie below the widths and whose operands have one width succeed, and
are those on sets: they answer alike, and leave facts whose members are the sets. -/
theorem facts_refine_sets {operations : List Operation} (fit : Fit [] operations) :
    ∃ row, runOnFacts [] operations = .ok ((runOnSets [] operations).1, row) ∧
      row.map positions = (runOnSets [] operations).2 ∧ (∀ fact ∈ row, fact.Stands) ∧
      ∀ left ∈ row, ∀ right ∈ row, left.width = right.width → left.Compares right := by
  obtain ⟨row, run, same⟩ := @runOnFacts_eq [] operations fit
  exact ⟨row, run, same, fun fact _ => fact.stands, fun _ _ _ _ => compares⟩

/-- A last word of a single bit, one that is full, and no word at all. -/
def boundaries : List Operation :=
  [.make (.full 65), .make (.ofIndices 65 [0, 63, 64, 63]), .edit 1 (.erase 64),
    .edit 0 (.pair .inter 1), .edit 1 (.pair .union 0), .edit 1 (.insert 64),
    .make (.unionOf 65 [0, 1]), .edit 2 (.pair .diff 0), .make (.interOf 64 []),
    .make (.interOf 64 [3]), .edit 3 .clear, .make (.empty 0), .edit 5 .fill]

theorem facts_refine_sets_at_boundaries : Fit [] boundaries ∧
    runOnSets [] boundaries = ([none, none, some true, some true, some false, some true, none,
      some true, none, none, none, none, none], [⟨65, {0, 63}⟩, ⟨65, {0, 63, 64}⟩, ⟨65, {64}⟩,
      ⟨64, ∅⟩, ⟨64, Finset.range 64⟩, ⟨0, ∅⟩]) ∧
    ∃ row, runOnFacts [] boundaries = .ok ((runOnSets [] boundaries).1, row) ∧
      row.map positions = (runOnSets [] boundaries).2 ∧ (∀ fact ∈ row, fact.Stands) ∧
      ∀ left ∈ row, ∀ right ∈ row, left.width = right.width → left.Compares right := by
  have fit : Fit [] boundaries := by
    refine ⟨trivial, ?_, ⟨_, rfl, ?_⟩, ⟨_, rfl, rfl⟩, ⟨_, rfl, rfl⟩, ⟨_, rfl, ?_⟩, ?_, ⟨_, rfl, rfl⟩,
      ?_, ?_, ⟨_, rfl, trivial⟩, trivial, ⟨_, rfl, trivial⟩, trivial⟩
    · exact (by decide : ∀ i ∈ [0, 63, 64, 63], i < 65)
    · exact (by decide : 64 < 65)
    · exact (by decide : 64 < 65)
    · exact List.forall_mem_cons.mpr ⟨rfl, List.forall_mem_singleton.mpr rfl⟩
    · exact fun _ absent => absurd absent List.not_mem_nil
    · exact List.forall_mem_singleton.mpr rfl
  exact ⟨fit, by decide +kernel, facts_refine_sets fit⟩

end Dataflow.Fact
