import Dataflow.Proofs.System.Basic

/-! Systems whose blocks are worked through after all blocks that flow into them. Such a block reads
only facts that the round has already written, and nothing that is written later flows into it. So
one round solves the equations from whatever store it starts, and there is only one solution. -/
namespace Dataflow.System

variable {β ι ν : Type} {system : System β ι ν} {before : β → β → Prop}

structure Topological (system : System β ι ν) (before : β → β → Prop) : Prop where
  distinct : system.graph.program.Nodup
  order : (system.direction.blockOrder system.graph).Pairwise before
  strict : ∀ first second, before first second → ¬ before second first
  listed : ∀ block ∈ system.graph.blocks,
    ∀ neighbor ∈ system.direction.neighbors system.graph block, neighbor ∈ system.graph.blocks
  neighbors : ∀ block ∈ system.graph.blocks,
    ∀ neighbor ∈ system.direction.neighbors system.graph block, before neighbor block

theorem mem_order_of_exit? {block : β} {inst : ι}
    (exit : system.direction.exit? system.graph block = some inst) : inst ∈ system.order block :=
  List.mem_of_getLast? exit

variable [DecidableEq ι] [DecidableEq β]

/-- What comes out of a block depends on the facts with which its neighbours are left, and on no
others. -/
theorem outputs_congr {first second : Store ι} {block : β}
    (same : ∀ neighbor ∈ system.direction.neighbors system.graph block,
      ∀ inst ∈ system.order neighbor, first.get? inst = second.get? inst) :
    system.outputs first block = system.outputs second block := by
  have arriving : system.arriving first block = system.arriving second block := by
    refine List.filterMap_congr fun neighbor member => ?_
    cases exit : system.direction.exit? system.graph neighbor with
    | none => rfl
    | some inst =>
      rw [Option.bind_some, Option.bind_some, same neighbor member inst (mem_order_of_exit? exit)]
  rw [outputs, outputs, inflow, inflow, arriving]

def GivesBack (system : System β ι ν) (store : Store ι) (block : β) : Prop :=
  ∀ output ∈ system.outputs store block, store.get? output.1 = some output.2

/-- How many rounds a store is away from a solution, in an order in which one round is enough. -/
def shortfall (system : System β ι ν) (store : Store ι) : Nat :=
  if system.Solves store then 0 else 1

theorem shortfall_le_one (store : Store ι) : system.shortfall store ≤ 1 := by
  unfold shortfall
  split <;> omega

/-- Solutions that let the same facts out of a block have stored the same facts for it. -/
theorem Solves.get?_eq {first second : Store ι} (solves : system.Solves first)
    (solvesToo : system.Solves second) {block : β} (listed : block ∈ system.graph.blocks)
    (same : system.outputs first block = system.outputs second block) {inst : ι}
    (member : inst ∈ system.order block) : first.get? inst = second.get? inst := by
  obtain ⟨fact, given⟩ := exists_output first member
  rw [solves block listed (inst, fact) given, solvesToo block listed (inst, fact) (same ▸ given)]

namespace Topological

variable (topological : system.Topological before) {store : Store ι} {block next : β}

include topological

omit [DecidableEq ι] [DecidableEq β] in
theorem apart_order (listed : block ∈ system.graph.blocks) (listedNext : next ∈ system.graph.blocks)
    (apart : block ≠ next) {inst : ι} (member : inst ∈ system.order block) :
    inst ∉ system.order next := by
  intro inside
  exact apart (FlowGraph.eq_of_mem_instructions topological.distinct listed listedNext
    (system.mem_order.mp member) (system.mem_order.mp inside))

/-- Work on a block is not noticed by a block that comes no later. -/
theorem outputs_settle (listed : block ∈ system.graph.blocks)
    (listedNext : next ∈ system.graph.blocks) (later : ¬ before next block) :
    system.outputs (system.settle store next) block = system.outputs store block := by
  refine outputs_congr fun neighbor member inst inside => ?_
  have known := topological.listed block listed neighbor member
  have apart : neighbor ≠ next := by
    rintro rfl
    exact later (topological.neighbors block listed neighbor member)
  exact get?_settle_of_not_mem (topological.apart_order known listedNext apart inside)

/-- A block that has been worked through gives back what was stored for it. -/
theorem givesBack_settle (listed : block ∈ system.graph.blocks) :
    system.GivesBack (system.settle store block) block := by
  have irreflexive : ¬ before block block := fun reflexive =>
    topological.strict block block reflexive reflexive
  intro output member
  rw [topological.outputs_settle listed listed irreflexive] at member
  exact get?_settle_of_output topological.distinct listed member

/-- It goes on doing so while later blocks are worked through. -/
theorem givesBack_later (gives : system.GivesBack store block)
    (listed : block ∈ system.graph.blocks) (listedNext : next ∈ system.graph.blocks)
    (later : before block next) : system.GivesBack (system.settle store next) block := by
  have apart : block ≠ next := by
    rintro rfl
    exact topological.strict block block later later
  intro output member
  rw [topological.outputs_settle listed listedNext (topological.strict block next later)] at member
  rw [get?_settle_of_not_mem
    (topological.apart_order listed listedNext apart (mem_order_of_output member))]
  exact gives output member

/-- The blocks that a round has come through give back what is stored, so do all in the end. -/
theorem givesBack_foldl {done rest : List β}
    (order : system.direction.blockOrder system.graph = done ++ rest)
    (settled : ∀ block ∈ done, system.GivesBack store block) :
    ∀ block ∈ done ++ rest, system.GivesBack (rest.foldl system.settle store) block := by
  induction rest generalizing done store with
  | nil => simpa using settled
  | cons next rest ih =>
    have listed : ∀ block ∈ done ++ next :: rest, block ∈ system.graph.blocks := by
      rw [← order]
      exact fun _ => system.mem_blockOrder.mp
    have pairs := order ▸ topological.order
    rw [List.append_cons] at order ⊢
    refine ih order fun block member => ?_
    rcases List.mem_append.mp member with earlier | new
    · exact topological.givesBack_later (settled block earlier) (listed block (by simp [earlier]))
        (listed next (by simp)) ((List.pairwise_append.mp pairs).2.2 block earlier next (by simp))
    · rw [List.mem_singleton.mp new]
      exact topological.givesBack_settle (listed next (by simp))

/-- One round solves the equations. -/
theorem solves_round (store : Store ι) : system.Solves (system.round store) := by
  intro block listed
  refine topological.givesBack_foldl (List.nil_append _).symm (by simp) block ?_
  exact system.mem_blockOrder.mpr listed

theorem shortfall_round_lt (unsolved : ¬ system.Solves store) :
    system.shortfall (system.round store) < system.shortfall store := by
  unfold shortfall
  rw [if_pos (topological.solves_round store), if_neg unsolved]
  exact Nat.zero_lt_one

omit [DecidableEq ι] [DecidableEq β] in
/-- What flows into a block has been listed before it. -/
theorem mem_done {done rest : List β}
    (order : system.direction.blockOrder system.graph = done ++ next :: rest)
    (beside : block ∈ system.direction.neighbors system.graph next) : block ∈ done := by
  have listed : next ∈ system.graph.blocks := by
    rw [← system.mem_blockOrder, order]
    simp
  have ahead := topological.neighbors next listed block beside
  have member := system.mem_blockOrder.mpr (topological.listed next listed block beside)
  rw [order] at member
  rcases List.mem_append.mp member with earlier | later
  · exact earlier
  rcases List.mem_cons.mp later with rfl | after
  · exact absurd ahead (topological.strict block block ahead)
  · have pairs := (List.pairwise_append.mp (order ▸ topological.order)).2.1
    exact absurd ahead (topological.strict next block ((List.pairwise_cons.mp pairs).1 block after))

/-- Solutions agree on the blocks that they agree on so far and on those after them. -/
theorem outputs_eq {first second : Store ι} (solves : system.Solves first)
    (solvesToo : system.Solves second) {done rest : List β}
    (order : system.direction.blockOrder system.graph = done ++ rest)
    (agree : ∀ block ∈ done, system.outputs first block = system.outputs second block) :
    ∀ block ∈ done ++ rest, system.outputs first block = system.outputs second block := by
  induction rest generalizing done with
  | nil => simpa using agree
  | cons next rest ih =>
    have listed : next ∈ system.graph.blocks := by
      rw [← system.mem_blockOrder, order]
      simp
    have here : system.outputs first next = system.outputs second next :=
      outputs_congr fun neighbor beside inst inside =>
        solves.get?_eq solvesToo (topological.listed next listed neighbor beside)
          (agree neighbor (topological.mem_done order beside)) inside
    rw [List.append_cons] at order ⊢
    refine ih order fun block member => ?_
    rcases List.mem_append.mp member with earlier | new
    · exact agree block earlier
    · rw [List.mem_singleton.mp new, here]

/-- There is only one solution. -/
theorem solution_unique {first second : Store ι} (solves : system.Solves first)
    (solvesToo : system.Solves second) {inst : ι} (listed : inst ∈ system.graph.program) :
    first.get? inst = second.get? inst := by
  obtain ⟨block, listedBlock, member⟩ := FlowGraph.mem_program.mp listed
  have same := topological.outputs_eq solves solvesToo (List.nil_append _).symm (by simp) block
    (system.mem_blockOrder.mpr listedBlock)
  exact solves.get?_eq solvesToo listedBlock same (system.mem_order.mpr member)

end Topological

end Dataflow.System
