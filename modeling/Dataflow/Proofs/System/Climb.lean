import Dataflow.Proofs.System.Basic
import Mathlib.Algebra.Order.BigOperators.Group.List
import Mathlib.Algebra.Order.Ring.Nat
import Mathlib.Data.List.Forall2

/-! Climbing to a solution. With monotone operators a store that lies below its own outputs
keeps doing so while blocks are worked through one by one on facts that partly come from this
round and partly from the one before. Facts then move one way only, so every round that does
not find a solution uses up some of a bounded height; and no fact climbs past one that the
equations already keep. -/
namespace Dataflow

def Polarity.Under {ι : Type} [DecidableEq ι] (polarity : Polarity) (lower upper : Store ι) : Prop :=
  ∀ inst fact other, lower.get? inst = some fact → upper.get? inst = some other →
    polarity.Below fact other

namespace Operators

variable {β ι : Type} {ops : Operators β ι} {width : Nat} {polarity : Polarity}

/-- Larger facts of a width give larger facts. The lists of neighbours name the same blocks in
the same order. -/
structure Monotone (ops : Operators β ι) (width : Nat) : Prop where
  meet : ∀ block (left right : List (Neighbor β)), left ≠ [] →
    (∀ neighbor ∈ left, neighbor.fact.width = width) →
    (∀ neighbor ∈ right, neighbor.fact.width = width) →
    List.Forall₂ (fun l r => l.block = r.block ∧ l.fact ⊆ r.fact) left right →
    ops.meet block left ⊆ ops.meet block right
  transfer : ∀ inst left right, left.width = width → right.width = width →
    left ⊆ right → ops.transfer inst left ⊆ ops.transfer inst right

theorem exists_larger {left right : List (Neighbor β)}
    (pairs : List.Forall₂ (fun l r => l.block = r.block ∧ l.fact ⊆ r.fact) left right)
    {neighbor : Neighbor β} (member : neighbor ∈ left) :
    ∃ larger ∈ right, neighbor.block = larger.block ∧ neighbor.fact ⊆ larger.fact := by
  induction pairs with
  | nil => cases member
  | cons pair _ ih =>
    rcases List.mem_cons.mp member with rfl | later
    · exact ⟨_, List.mem_cons_self, pair⟩
    · obtain ⟨larger, found, above⟩ := ih later
      exact ⟨larger, List.mem_cons_of_mem _ found, above⟩

theorem Monotone.meet_below (monotone : ops.Monotone width) {block : β}
    {lower upper : List (Neighbor β)} (nonempty : lower ≠ [])
    (sizedLower : ∀ neighbor ∈ lower, neighbor.fact.width = width)
    (sizedUpper : ∀ neighbor ∈ upper, neighbor.fact.width = width)
    (below : List.Forall₂ (fun l u => l.block = u.block ∧ polarity.Below l.fact u.fact) lower upper) :
    polarity.Below (ops.meet block lower) (ops.meet block upper) := by
  cases polarity with
  | ascending => exact monotone.meet block lower upper nonempty sizedLower sizedUpper below
  | descending =>
    have turned : List.Forall₂ (fun u l => u.block = l.block ∧ u.fact ⊆ l.fact) upper lower :=
      List.Forall₂.flip (below.imp fun _ _ pair => ⟨pair.1.symm, pair.2⟩)
    refine monotone.meet block upper lower ?_ sizedUpper sizedLower turned
    rintro rfl
    exact nonempty (List.forall₂_nil_left_iff.mp turned)

theorem Monotone.transfer_below (monotone : ops.Monotone width) {inst : ι} {lower upper : Fact}
    (sizedLower : lower.width = width) (sizedUpper : upper.width = width)
    (below : polarity.Below lower upper) :
    polarity.Below (ops.transfer inst lower) (ops.transfer inst upper) := by
  cases polarity with
  | ascending => exact monotone.transfer inst lower upper sizedLower sizedUpper below
  | descending => exact monotone.transfer inst upper lower sizedUpper sizedLower below

theorem Sized.through (sized : ops.Sized width) {input : Fact} (fits : input.width = width)
    (insts : List ι) : (ops.through input insts).width = width := by
  induction insts generalizing input with
  | nil => exact fits
  | cons inst rest ih => exact ih (sized.transfer inst input fits)

theorem Monotone.through_below (monotone : ops.Monotone width) (sized : ops.Sized width)
    {lower upper : Fact} (sizedLower : lower.width = width) (sizedUpper : upper.width = width)
    (below : polarity.Below lower upper) (insts : List ι) :
    polarity.Below (ops.through lower insts) (ops.through upper insts) := by
  induction insts generalizing lower upper with
  | nil => exact below
  | cons inst rest ih =>
    exact ih (sized.transfer inst lower sizedLower) (sized.transfer inst upper sizedUpper)
      (monotone.transfer_below sizedLower sizedUpper below)

end Operators

namespace System

variable {β ι ν : Type} [DecidableEq ι] {system : System β ι ν} {polarity : Polarity}

/-- Which neighbours arrive is decided by the keys of a store, so two stores over the same
instructions list the same blocks. -/
theorem arriving_below {lower upper : Store ι} (coversLower : system.Covers lower)
    (coversUpper : system.Covers upper) (under : polarity.Under lower upper) (block : β) :
    List.Forall₂ (fun l u => l.block = u.block ∧ polarity.Below l.fact u.fact)
      (system.arriving lower block) (system.arriving upper block) := by
  unfold arriving
  induction system.direction.neighbors system.graph block with
  | nil => exact .nil
  | cons neighbor rest ih =>
    cases exit : system.direction.exit? system.graph neighbor with
    | none => simpa [List.filterMap_cons, exit] using ih
    | some inst =>
      have keys : (lower.get? inst).isSome ↔ (upper.get? inst).isSome :=
        (coversLower.listed inst).trans (coversUpper.listed inst).symm
      cases foundLower : lower.get? inst with
      | none =>
        have foundUpper : upper.get? inst = none := by simpa [foundLower] using keys
        simpa [List.filterMap_cons, exit, foundLower, foundUpper] using ih
      | some fact =>
        obtain ⟨other, foundUpper⟩ : ∃ other, upper.get? inst = some other := by
          simpa [foundLower, Option.isSome_iff_exists] using keys
        simp only [List.filterMap_cons, exit, foundLower, foundUpper, Option.bind_some,
          Option.map_some]
        exact .cons ⟨rfl, under inst fact other foundLower foundUpper⟩ ih

/-! How far a store has climbed, over all its instructions. -/

def heightAt (polarity : Polarity) (store : Store ι) (inst : ι) : Nat :=
  ((store.get? inst).map polarity.height).getD 0

def level (system : System β ι ν) (polarity : Polarity) (store : Store ι) : Nat :=
  (system.graph.program.map (heightAt polarity store)).sum

theorem level_le {store : Store ι} (covers : system.Covers store) :
    system.level polarity store ≤ system.width * system.graph.program.length := by
  have bounded : ∀ height ∈ system.graph.program.map (heightAt polarity store),
      height ≤ system.width := by
    intro height member
    obtain ⟨inst, _, rfl⟩ := List.mem_map.mp member
    unfold heightAt
    cases found : store.get? inst with
    | none => exact Nat.zero_le _
    | some fact =>
      rw [← covers.sized inst fact found]
      exact Polarity.height_le_width fact
  have total := List.sum_le_card_nsmul _ _ bounded
  rwa [List.length_map, Nat.nsmul_eq_mul, Nat.mul_comm] at total

/-- The height that is left to climb. -/
def gap (system : System β ι ν) (polarity : Polarity) (store : Store ι) : Nat :=
  system.width * system.graph.program.length - system.level polarity store

theorem gap_le (store : Store ι) :
    system.gap polarity store ≤ system.width * system.graph.program.length :=
  Nat.sub_le _ _

theorem heightAt_le {lower upper : Store ι} (coversLower : system.Covers lower)
    (coversUpper : system.Covers upper) (under : polarity.Under lower upper) {inst : ι}
    (listed : inst ∈ system.graph.program) :
    heightAt polarity lower inst ≤ heightAt polarity upper inst ∧
      (heightAt polarity upper inst ≤ heightAt polarity lower inst →
        lower.get? inst = upper.get? inst) := by
  obtain ⟨fact, found, sized⟩ := coversLower.exists_fact listed
  obtain ⟨other, foundOther, sizedOther⟩ := coversUpper.exists_fact listed
  have below := under inst fact other found foundOther
  have width := sized.trans sizedOther.symm
  simp only [heightAt, found, foundOther, Option.map_some, Option.getD_some, Option.some.injEq]
  exact ⟨below.height_le width, below.eq_of_height_le width⟩

theorem level_mono {lower upper : Store ι} (coversLower : system.Covers lower)
    (coversUpper : system.Covers upper) (under : polarity.Under lower upper) :
    system.level polarity lower ≤ system.level polarity upper :=
  List.sum_le_sum fun _ listed => (heightAt_le coversLower coversUpper under listed).1

/-- Stores at one level, one under the other, hold the same facts. -/
theorem get?_eq_of_level_le {lower upper : Store ι} (coversLower : system.Covers lower)
    (coversUpper : system.Covers upper) (under : polarity.Under lower upper)
    (flat : system.level polarity upper ≤ system.level polarity lower) {inst : ι}
    (listed : inst ∈ system.graph.program) : lower.get? inst = upper.get? inst := by
  have pointwise : ∀ other ∈ system.graph.program, _ :=
    fun _ member => heightAt_le coversLower coversUpper under member
  apply (pointwise inst listed).2
  apply Nat.le_of_not_lt
  intro less
  have more := List.sum_lt_sum (heightAt polarity lower) (heightAt polarity upper)
    (fun other member => (pointwise other member).1) ⟨inst, listed, less⟩
  exact absurd flat (Nat.not_le_of_lt more)

variable [DecidableEq β]

theorem inflow_below (monotone : system.toOperators.Monotone system.width) {lower upper : Store ι}
    (coversLower : system.Covers lower) (coversUpper : system.Covers upper)
    (under : polarity.Under lower upper) (block : β) :
    polarity.Below (system.inflow lower block).fact (system.inflow upper block).fact := by
  have below := arriving_below coversLower coversUpper under block
  have empty : (system.arriving upper block).isEmpty = (system.arriving lower block).isEmpty := by
    rw [Bool.eq_iff_iff, List.isEmpty_iff, List.isEmpty_iff]
    constructor
    · intro none
      rwa [none, List.forall₂_nil_right_iff] at below
    · intro none
      rwa [none, List.forall₂_nil_left_iff] at below
  unfold inflow
  rw [empty]
  split
  · exact polarity.below_refl _
  · next inner =>
    simp only [Bool.or_eq_true, List.isEmpty_iff, not_or] at inner
    exact monotone.meet_below inner.2 coversLower.arriving_sized coversUpper.arriving_sized below

structure Regular (system : System β ι ν) : Prop where
  sized : system.Sized
  monotone : system.toOperators.Monotone system.width
  distinct : system.graph.program.Nodup

/-- The outputs of a block on two stores, instruction by instruction. -/
theorem outputs_below (regular : system.Regular) {lower upper : Store ι}
    (coversLower : system.Covers lower) (coversUpper : system.Covers upper)
    (under : polarity.Under lower upper) {block : β} (listed : block ∈ system.graph.blocks)
    {inst : ι} {fact other : Fact} (memberLower : (inst, fact) ∈ system.outputs lower block)
    (memberUpper : (inst, other) ∈ system.outputs upper block) : polarity.Below fact other := by
  obtain ⟨before, after, place, value⟩ := system.mem_thread.mp memberLower
  have beside : (inst, system.transfer inst (system.through (system.inflow upper block).fact before))
      ∈ system.outputs upper block := system.mem_thread.mpr ⟨before, after, place, rfl⟩
  have same := (get?_settle_of_output regular.distinct listed memberUpper).symm.trans
    (get?_settle_of_output regular.distinct listed beside)
  simp only at value
  rw [value, Option.some.inj same]
  have keeps := regular.sized.toSized
  have sizedLower := inflow_sized regular.sized coversLower block
  have sizedUpper := inflow_sized regular.sized coversUpper block
  apply regular.monotone.transfer_below (keeps.through sizedLower before)
    (keeps.through sizedUpper before)
  exact regular.monotone.through_below keeps sizedLower sizedUpper
    (inflow_below regular.monotone coversLower coversUpper under block) before

/-- Every stored fact is below what its block would now give in its place. -/
def Rising (system : System β ι ν) (polarity : Polarity) (store : Store ι) : Prop :=
  ∀ block ∈ system.graph.blocks, ∀ output ∈ system.outputs store block, ∀ fact,
    store.get? output.1 = some fact → polarity.Below fact output.2

/-- The equations take no fact past the one in the store. -/
def Bounds (system : System β ι ν) (polarity : Polarity) (store : Store ι) : Prop :=
  ∀ block ∈ system.graph.blocks, ∀ output ∈ system.outputs store block, ∀ fact,
    store.get? output.1 = some fact → polarity.Below output.2 fact

/-- The store solves the equations, and it is under every store that they take no fact past:
going up it is the least such store, going down the greatest. -/
structure Extremal (system : System β ι ν) (polarity : Polarity) (store : Store ι) : Prop where
  covers : system.Covers store
  solves : system.Solves store
  under : ∀ bound, system.Covers bound → system.Bounds polarity bound → polarity.Under store bound

theorem Rising.under_settle {store : Store ι} (rising : system.Rising polarity store)
    (distinct : system.graph.program.Nodup) {block : β} (listed : block ∈ system.graph.blocks) :
    polarity.Under store (system.settle store block) := by
  intro inst fact next found foundNext
  by_cases member : inst ∈ system.order block
  · obtain ⟨output, given⟩ := exists_output store member
    rw [get?_settle_of_output distinct listed given] at foundNext
    cases foundNext
    exact rising block listed _ given fact found
  · rw [get?_settle_of_not_mem member, found] at foundNext
    cases foundNext
    exact polarity.below_refl fact

theorem Rising.settle {store : Store ι} (rising : system.Rising polarity store)
    (regular : system.Regular) (covers : system.Covers store) {block : β}
    (listed : block ∈ system.graph.blocks) : system.Rising polarity (system.settle store block) := by
  have under := rising.under_settle regular.distinct listed
  have coversNext := covers.settle regular.sized listed
  rintro other listedOther ⟨inst, next⟩ given fact found
  have member := mem_order_of_output given
  obtain ⟨output, earlier⟩ := exists_output store member
  have grown := outputs_below regular covers coversNext under listedOther earlier given
  by_cases inside : inst ∈ system.order block
  · have same : block = other := FlowGraph.eq_of_mem_instructions regular.distinct listed listedOther
      (system.mem_order.mp inside) (system.mem_order.mp member)
    subst same
    rw [get?_settle_of_output regular.distinct listed earlier] at found
    cases found
    exact grown
  · rw [get?_settle_of_not_mem inside] at found
    exact (rising other listedOther _ earlier fact found).trans grown

theorem Bounds.under_settle {store bound : Store ι} (bounds : system.Bounds polarity bound)
    (regular : system.Regular) (covers : system.Covers store) (coversBound : system.Covers bound)
    (under : polarity.Under store bound) {block : β} (listed : block ∈ system.graph.blocks) :
    polarity.Under (system.settle store block) bound := by
  intro inst fact limit found foundLimit
  by_cases member : inst ∈ system.order block
  · obtain ⟨output, given⟩ := exists_output store member
    obtain ⟨other, above⟩ := exists_output bound member
    rw [get?_settle_of_output regular.distinct listed given] at found
    cases found
    have below := outputs_below regular covers coversBound under listed given above
    exact below.trans (bounds block listed _ above limit foundLimit)
  · rw [get?_settle_of_not_mem member] at found
    exact under inst fact limit found foundLimit

/-- Working through blocks never lowers the level, and keeps it only where each of the blocks
already gives back what is stored. -/
theorem Rising.foldl_settle {store : Store ι} (rising : system.Rising polarity store)
    (regular : system.Regular) (covers : system.Covers store) (blocks : List β)
    (listed : ∀ block ∈ blocks, block ∈ system.graph.blocks) :
    system.level polarity store ≤ system.level polarity (blocks.foldl system.settle store) ∧
      (system.level polarity (blocks.foldl system.settle store) ≤ system.level polarity store →
        ∀ block ∈ blocks, ∀ output ∈ system.outputs store block,
          store.get? output.1 = some output.2) := by
  induction blocks generalizing store with
  | nil => simp
  | cons block rest ih =>
    have here := listed block (by simp)
    have coversNext := covers.settle regular.sized here
    have under := rising.under_settle regular.distinct here
    obtain ⟨climbs, steady⟩ := ih (rising.settle regular covers here) coversNext
      (fun other member => listed other (by simp [member]))
    have first := level_mono covers coversNext under
    refine ⟨first.trans climbs, fun flat => ?_⟩
    have stored : ∀ output ∈ system.outputs store block, store.get? output.1 = some output.2 := by
      intro output given
      rw [get?_eq_of_level_le covers coversNext under (climbs.trans flat)
        (system.mem_program_of_order here (mem_order_of_output given))]
      exact get?_settle_of_output regular.distinct here given
    -- the block left the store alone, so the others were worked through on the same facts
    have same : system.settle store block = store := Store.record_eq_self stored
    intro other member
    rcases List.mem_cons.mp member with rfl | later
    · exact stored
    · have rest := steady (flat.trans first) other later
      rwa [same] at rest

theorem Rising.level_lt_round {store : Store ι} (rising : system.Rising polarity store)
    (regular : system.Regular) (covers : system.Covers store) (unsolved : ¬ system.Solves store) :
    system.level polarity store < system.level polarity (system.round store) := by
  obtain ⟨_, steady⟩ := rising.foldl_settle regular covers
    (system.direction.blockOrder system.graph) (fun _ => system.mem_blockOrder.mp)
  apply Nat.lt_of_not_le
  intro flat
  exact unsolved fun block listed => steady flat block (system.mem_blockOrder.mpr listed)

/-- Every round that does not start from a solution uses up some of the height. -/
theorem Rising.gap_round_lt {store : Store ι} (rising : system.Rising polarity store)
    (regular : system.Regular) (covers : system.Covers store) (unsolved : ¬ system.Solves store) :
    system.gap polarity (system.round store) < system.gap polarity store := by
  have climbed := rising.level_lt_round regular covers unsolved
  have top : system.level polarity (system.round store) ≤ _ :=
    level_le (covers.round regular.sized)
  unfold gap
  omega

def Fresh (system : System β ι ν) (polarity : Polarity) (store : Store ι) : Prop :=
  ∀ inst, store.get? inst =
    if inst ∈ system.graph.program then some (polarity.seed system.width) else none

omit [DecidableEq β] in
theorem Fresh.eq_seed {store : Store ι} (fresh : system.Fresh polarity store) {inst : ι} {fact : Fact}
    (found : store.get? inst = some fact) : fact = polarity.seed system.width := by
  rw [fresh inst] at found
  split at found
  · exact (Option.some.inj found).symm
  · cases found

omit [DecidableEq β] in
theorem Fresh.not_mem {store : Store ι} (fresh : system.Fresh .ascending store) {inst : ι}
    {fact : Fact} (found : store.get? inst = some fact) (i : Nat) : i ∉ fact := by
  rw [fresh.eq_seed found]
  exact Fact.not_mem_empty system.width i

omit [DecidableEq β] in
theorem Fresh.covers {store : Store ι} (fresh : system.Fresh polarity store) :
    system.Covers store := by
  refine ⟨fun inst => ?_, fun inst fact found => ?_⟩
  · rw [fresh inst]
    by_cases listed : inst ∈ system.graph.program <;> simp [listed]
  · rw [fresh.eq_seed found]
    exact polarity.width_seed system.width

omit [DecidableEq β] in
theorem Fresh.under {store bound : Store ι} (fresh : system.Fresh polarity store)
    (covers : system.Covers bound) : polarity.Under store bound := by
  intro inst fact limit found foundLimit
  rw [fresh.eq_seed found]
  exact polarity.seed_below (covers.sized inst limit foundLimit)

theorem Fresh.rising {store : Store ι} (fresh : system.Fresh polarity store) (sized : system.Sized) :
    system.Rising polarity store := by
  intro block _ output given fact found
  rw [fresh.eq_seed found]
  exact polarity.seed_below (outputs_sized sized fresh.covers block output given)

end System

end Dataflow
