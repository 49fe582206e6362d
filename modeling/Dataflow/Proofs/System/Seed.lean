import Dataflow.Proofs.System.Climb

/-! Systems seen from a fact. If facts are told by where they differ from a given one, the seed, then
a round of a system is a round of another system, and what starts as the seed starts as nothing.
Where the operators decide every position by itself, the other system climbs, whichever seed it is
seen from: a position that the seed has can only be lost, and one that it lacks can only be gained. -/
namespace Dataflow

namespace Fact

/-- The positions at which a fact differs from the seed. -/
def against (seed fact : Fact) : Fact := ofPred seed.width fun i => ¬ (i ∈ fact ↔ i ∈ seed)

@[simp] theorem width_against (seed fact : Fact) : (seed.against fact).width = seed.width :=
  width_ofPred _ _

theorem mem_against {seed fact : Fact} (sized : fact.width = seed.width) {i : Nat} :
    i ∈ seed.against fact ↔ ¬ (i ∈ fact ↔ i ∈ seed) := by
  rw [against, mem_ofPred, and_iff_right_iff_imp]
  intro differs
  by_contra outside
  refine differs (iff_of_false (fun member => ?_) fun member => outside (lt_width member))
  exact outside (sized ▸ lt_width member)

/-- Where the seed has nothing, differing from it is having the position. -/
theorem against_imp_of_not_mem {seed left right : Fact} {i : Nat} (lacks : i ∉ seed)
    (onward : i ∈ left → i ∈ right) : i ∈ seed.against left → i ∈ seed.against right := by
  simp only [against, mem_ofPred, lacks, iff_false, not_not]
  exact And.imp_right onward

/-- Where the seed has the position, differing from it is lacking the position. -/
theorem against_imp_of_mem {seed left right : Fact} {i : Nat} (has : i ∈ seed)
    (onward : i ∈ left → i ∈ right) : i ∈ seed.against right → i ∈ seed.against left := by
  simp only [against, mem_ofPred, has, iff_true]
  exact And.imp_right (mt onward)

/-- Differing from the seed twice is not differing. -/
theorem against_against {seed fact : Fact} (sized : fact.width = seed.width) :
    seed.against (seed.against fact) = fact := by
  refine ext_mem ((width_against seed _).trans sized.symm) fun i => ?_
  rw [mem_against (width_against seed fact), mem_against sized]
  tauto

theorem against_self (seed : Fact) : seed.against seed = empty seed.width := by
  refine ext_mem (width_against seed seed) fun i => ?_
  rw [mem_against rfl]
  simp

theorem eq_of_against_eq {seed left right : Fact} (sizedLeft : left.width = seed.width)
    (sizedRight : right.width = seed.width) (same : seed.against left = seed.against right) :
    left = right := by
  rw [← against_against sizedLeft, same, against_against sizedRight]

end Fact

def Neighbor.against {β : Type} (seed : Fact) (neighbor : Neighbor β) : Neighbor β :=
  ⟨neighbor.block, seed.against neighbor.fact⟩

theorem Neighbor.map_against {β : Type} {seed : Fact} {neighbors : List (Neighbor β)}
    (sized : ∀ neighbor ∈ neighbors, neighbor.fact.width = seed.width) :
    (neighbors.map (against seed)).map (against seed) = neighbors := by
  rw [List.map_map]
  refine (List.map_congr_left fun neighbor member => ?_).trans (List.map_id neighbors)
  simp [against, Fact.against_against (sized neighbor member)]

namespace Store

variable {ι : Type} [DecidableEq ι]

def against (store : Store ι) (seed : Fact) : Store ι where
  entries := store.entries.map fun entry => (entry.1, seed.against entry.2)
  distinct := by
    rw [List.map_map]
    exact store.distinct

theorem get?_against (store : Store ι) (seed : Fact) (inst : ι) :
    (store.against seed).get? inst = (store.get? inst).map seed.against := by
  unfold Assignment.get?
  rw [against, List.find?_map, Option.map_map, Option.map_map]
  rfl

private theorem write_against (seed fact : Fact) (inst : ι) (entries : List (ι × Fact)) :
    (Assignment.write inst fact entries).map (fun entry => (entry.1, seed.against entry.2)) =
      Assignment.write inst (seed.against fact)
        (entries.map fun entry => (entry.1, seed.against entry.2)) := by
  induction entries with
  | nil => rfl
  | cons entry rest ih =>
    by_cases same : entry.1 = inst
    · simp [Assignment.write, same]
    · simp [Assignment.write, same, ih]

theorem set_against (store : Store ι) (seed fact : Fact) (inst : ι) :
    against (Assignment.set store inst fact) seed =
      Assignment.set (store.against seed) inst (seed.against fact) := by
  simp only [against, Assignment.set, write_against]

theorem record_against (store : Store ι) (seed : Fact) (outputs : List (ι × Fact)) :
    (store.record outputs).against seed =
      (store.against seed).record (outputs.map fun output => (output.1, seed.against output.2)) := by
  induction outputs generalizing store with
  | nil => rfl
  | cons output rest ih => rw [record_cons, ih, set_against, List.map_cons, record_cons]

end Store

/-- Every position is decided by itself: an output has a position if the input has it, or whether or
not the input has it, and nothing else counts. -/
structure Operators.Positional {β ι : Type} (ops : Operators β ι) (width : Nat) : Prop where
  meet : ∀ block (left right : List (Neighbor β)) (i : Nat), left ≠ [] →
    (∀ neighbor ∈ left, neighbor.fact.width = width) →
    (∀ neighbor ∈ right, neighbor.fact.width = width) →
    List.Forall₂ (fun l r => l.block = r.block ∧ (i ∈ l.fact → i ∈ r.fact)) left right →
    i ∈ ops.meet block left → i ∈ ops.meet block right
  transfer : ∀ inst (left right : Fact) (i : Nat), left.width = width → right.width = width →
    (i ∈ left → i ∈ right) → i ∈ ops.transfer inst left → i ∈ ops.transfer inst right

namespace System

variable {β ι ν : Type}

/-- The system that does to differences from the seed what this one does to facts. -/
def against (system : System β ι ν) (seed : Fact) : System β ι ν :=
  { system with
    meet := fun block neighbors =>
      seed.against (system.meet block (neighbors.map (Neighbor.against seed)))
    transfer := fun inst fact => seed.against (system.transfer inst (seed.against fact))
    boundary := seed.against system.boundary }

@[simp] theorem against_graph (system : System β ι ν) (seed : Fact) :
    (system.against seed).graph = system.graph := rfl

@[simp] theorem against_direction (system : System β ι ν) (seed : Fact) :
    (system.against seed).direction = system.direction := rfl

variable {system : System β ι ν} {seed : Fact} (fits : seed.width = system.width)

include fits

theorem sized_against : (system.against seed).Sized where
  meet := fun _ _ _ _ => (Fact.width_against _ _).trans fits
  transfer := fun _ _ _ => (Fact.width_against _ _).trans fits
  boundary := (Fact.width_against _ _).trans fits

theorem thread_against (sized : system.Sized) {input : Fact} (width : input.width = system.width)
    (insts : List ι) :
    (system.against seed).thread (seed.against input) insts =
      (system.thread input insts).map fun output => (output.1, seed.against output.2) := by
  induction insts generalizing input with
  | nil => rfl
  | cons inst rest ih =>
    have step : (system.against seed).transfer inst (seed.against input) =
        seed.against (system.transfer inst input) :=
      congrArg (fun fact => seed.against (system.transfer inst fact))
        (Fact.against_against (width.trans fits.symm))
    simp only [Operators.thread, step, ih (sized.transfer inst input width), List.map_cons]

variable [DecidableEq ι]

theorem Covers.against {store : Store ι} (covers : system.Covers store) :
    (system.against seed).Covers (store.against seed) := by
  refine ⟨fun inst => ?_, fun inst fact found => ?_⟩
  · rw [Store.get?_against, Option.isSome_map]
    exact covers.listed inst
  · rw [Store.get?_against] at found
    obtain ⟨_, _, rfl⟩ := Option.map_eq_some_iff.mp found
    exact (Fact.width_against _ _).trans fits

omit fits in
theorem arriving_against (store : Store ι) (block : β) :
    (system.against seed).arriving (store.against seed) block =
      (system.arriving store block).map (Neighbor.against seed) := by
  unfold arriving
  rw [List.map_filterMap]
  refine List.filterMap_congr fun neighbor _ => ?_
  simp only [against_direction, against_graph, Store.get?_against, Option.map_bind, Option.map_map,
    Function.comp_def]
  rfl

variable [DecidableEq β]

theorem inflow_against {store : Store ι} (covers : system.Covers store) (block : β) :
    ((system.against seed).inflow (store.against seed) block).fact =
      seed.against (system.inflow store block).fact := by
  have sized : ∀ neighbor ∈ system.arriving store block, neighbor.fact.width = seed.width :=
    fun neighbor member => (covers.arriving_sized neighbor member).trans fits.symm
  unfold inflow
  rw [arriving_against, List.isEmpty_map, against_graph, against_direction]
  by_cases outer : (system.direction.usesBoundary system.graph block ||
      (system.arriving store block).isEmpty) = true
  · rw [if_pos outer, if_pos outer]
    rfl
  · rw [if_neg outer, if_neg outer]
    exact congrArg (fun neighbors => seed.against (system.meet block neighbors))
      (Neighbor.map_against sized)

theorem outputs_against (sized : system.Sized) {store : Store ι} (covers : system.Covers store)
    (block : β) :
    (system.against seed).outputs (store.against seed) block =
      (system.outputs store block).map fun output => (output.1, seed.against output.2) := by
  unfold outputs
  rw [inflow_against fits covers]
  exact thread_against fits sized (inflow_sized sized covers block) _

theorem settle_against (sized : system.Sized) {store : Store ι} (covers : system.Covers store)
    (block : β) :
    (system.against seed).settle (store.against seed) block =
      (system.settle store block).against seed := by
  rw [settle, settle, outputs_against fits sized covers, Store.record_against]

theorem foldl_settle_against (sized : system.Sized) {store : Store ι} (covers : system.Covers store)
    {blocks : List β} (listed : ∀ block ∈ blocks, block ∈ system.graph.blocks) :
    blocks.foldl (system.against seed).settle (store.against seed) =
      (blocks.foldl system.settle store).against seed := by
  induction blocks generalizing store with
  | nil => rfl
  | cons block rest ih =>
    rw [List.forall_mem_cons] at listed
    rw [List.foldl_cons, List.foldl_cons, settle_against fits sized covers]
    exact ih (covers.settle sized listed.1) listed.2

theorem round_against (sized : system.Sized) {store : Store ι} (covers : system.Covers store) :
    (system.against seed).round (store.against seed) = (system.round store).against seed :=
  foldl_settle_against fits sized covers fun _ => system.mem_blockOrder.mp

theorem solves_of_against (sized : system.Sized) {store : Store ι} (covers : system.Covers store)
    (solves : (system.against seed).Solves (store.against seed)) : system.Solves store := by
  intro block listed output given
  have stored := solves block listed (output.1, seed.against output.2) (by
    rw [outputs_against fits sized covers]
    exact List.mem_map_of_mem given)
  rw [Store.get?_against] at stored
  obtain ⟨fact, found, same⟩ := Option.map_eq_some_iff.mp stored
  have width := covers.sized output.1 fact found
  have widthOutput := outputs_sized sized covers block output given
  rw [found, Fact.eq_of_against_eq (width.trans fits.symm) (widthOutput.trans fits.symm) same]

def gapFrom (system : System β ι ν) (seed : Fact) (store : Store ι) : Nat :=
  (system.against seed).gap .ascending (store.against seed)

omit fits [DecidableEq β] in
theorem gapFrom_le (store : Store ι) :
    system.gapFrom seed store ≤ system.width * system.graph.program.length :=
  gap_le _

theorem Rising.gapFrom_round_lt (sized : system.Sized) (regular : (system.against seed).Regular)
    {store : Store ι} (covers : system.Covers store)
    (rising : (system.against seed).Rising .ascending (store.against seed))
    (unsolved : ¬ system.Solves store) :
    system.gapFrom seed (system.round store) < system.gapFrom seed store := by
  unfold gapFrom
  rw [← round_against fits sized covers]
  exact rising.gap_round_lt regular (covers.against fits)
    (mt (solves_of_against fits sized covers) unsolved)

omit [DecidableEq ι] [DecidableEq β]

/-- What is lost of the seed counts as going up just as what is gained beyond it. -/
theorem monotone_against (positional : system.toOperators.Positional system.width) :
    (system.against seed).toOperators.Monotone system.width where
  meet := by
    intro block left right nonempty _ _ pairs i
    have sized : ∀ (neighbors : List (Neighbor β)),
        ∀ neighbor ∈ neighbors.map (Neighbor.against seed), neighbor.fact.width = system.width :=
      fun _ => List.forall_mem_map.mpr fun _ _ => (Fact.width_against _ _).trans fits
    by_cases has : i ∈ seed
    -- going up is losing the position here, so left and right change places
    · refine Fact.against_imp_of_mem has (positional.meet block _ _ i ?_ (sized right) (sized left) ?_)
      · rw [ne_eq, List.map_eq_nil_iff]
        rintro rfl
        exact nonempty (List.forall₂_nil_right_iff.mp pairs)
      · rw [List.forall₂_map_left_iff, List.forall₂_map_right_iff]
        exact (pairs.imp fun _ _ pair =>
          ⟨pair.1.symm, Fact.against_imp_of_mem has (pair.2 i)⟩).flip
    · refine Fact.against_imp_of_not_mem has
        (positional.meet block _ _ i ?_ (sized left) (sized right) ?_)
      · rwa [ne_eq, List.map_eq_nil_iff]
      · rw [List.forall₂_map_left_iff, List.forall₂_map_right_iff]
        exact pairs.imp fun _ _ pair => ⟨pair.1, Fact.against_imp_of_not_mem has (pair.2 i)⟩
  transfer := by
    intro inst left right _ _ inside i
    have sized : ∀ fact, (seed.against fact).width = system.width :=
      fun fact => (Fact.width_against seed fact).trans fits
    by_cases has : i ∈ seed
    · exact Fact.against_imp_of_mem has (positional.transfer inst _ _ i (sized right) (sized left)
        (Fact.against_imp_of_mem has (inside i)))
    · exact Fact.against_imp_of_not_mem has (positional.transfer inst _ _ i (sized left)
        (sized right) (Fact.against_imp_of_not_mem has (inside i)))

end System

end Dataflow
