import Dataflow.FlowGraph.Defect
import Dataflow.FlowGraph.Table
import Dataflow.Proofs.FlowGraph.Program
import Mathlib.Data.Option.Basic
import Mathlib.Logic.Relation

/-! Well-formed graphs and the control flow through them. A graph has no defect exactly if
every block is well formed. Control then steps from an instruction to the next one of its block
or, over an edge that both ends list, to the first one of another. -/
namespace Dataflow

namespace FlowGraph

variable {β ι ν : Type}

structure WellFormedAt (graph : FlowGraph β ι ν) (block : β) : Prop where
  nonempty : graph.instructions block ≠ []
  forward : ∀ target ∈ graph.successors block, block ∈ graph.predecessors target
  backward : ∀ source ∈ graph.predecessors block, block ∈ graph.successors source
  owned : ∀ inst ∈ graph.instructions block, graph.blockOf inst = block
  /-- No merge comes after an ordinary instruction. -/
  leading : (graph.instructions block).Pairwise fun earlier later =>
    graph.isMerge later = true → graph.isMerge earlier = true
  agrees : ∀ inst ∈ graph.instructions block, graph.isMerge inst = true → graph.Agrees block inst

def ClosedForward (graph : FlowGraph β ι ν) : Prop :=
  ∀ block ∈ graph.blocks, ∀ target ∈ graph.successors block, target ∈ graph.blocks

def ClosedBackward (graph : FlowGraph β ι ν) : Prop :=
  ∀ block ∈ graph.blocks, ∀ source ∈ graph.predecessors block, source ∈ graph.blocks

def HasOrdinary (graph : FlowGraph β ι ν) : Prop :=
  ∀ block ∈ graph.blocks, ∃ inst ∈ graph.instructions block, graph.isMerge inst = false

instance [DecidableEq β] (graph : FlowGraph β ι ν) : Decidable graph.ClosedForward :=
  inferInstanceAs (Decidable (∀ _ ∈ _, _))

instance [DecidableEq β] (graph : FlowGraph β ι ν) : Decidable graph.ClosedBackward :=
  inferInstanceAs (Decidable (∀ _ ∈ _, _))

instance (graph : FlowGraph β ι ν) : Decidable graph.HasOrdinary :=
  inferInstanceAs (Decidable (∀ _ ∈ _, _))

section Defects

variable [DecidableEq β] {graph : FlowGraph β ι ν} {block : β}

theorem edgeDefect?_eq_none_iff : graph.edgeDefect? block = none ↔
    (∀ target ∈ graph.successors block, block ∈ graph.predecessors target) ∧
      ∀ source ∈ graph.predecessors block, block ∈ graph.successors source := by
  simp [edgeDefect?, List.findSome?_eq_none_iff]

/-- The state of the scan is whether an ordinary instruction has gone by; from then on a merge
is late. -/
theorem instructionDefect?_eq_none_iff {ordinary : Option ι} {insts : List ι} :
    graph.instructionDefect? block ordinary insts = none ↔
      (∀ inst ∈ insts, graph.blockOf inst = block) ∧
      (∀ inst ∈ insts, graph.isMerge inst = true → ordinary = none ∧ graph.Agrees block inst) ∧
      insts.Pairwise fun earlier later =>
        graph.isMerge later = true → graph.isMerge earlier = true := by
  induction insts generalizing ordinary with
  | nil => simp [instructionDefect?]
  | cons inst rest ih =>
    rw [instructionDefect?.eq_def, List.forall_mem_cons, List.forall_mem_cons, List.pairwise_cons]
    dsimp only
    by_cases own : graph.blockOf inst = block
    · cases merge : graph.isMerge inst with
      | true =>
        cases ordinary with
        | some first => simp [own]
        | none =>
          by_cases agrees : graph.Agrees block inst
          · simp [own, agrees, ih]
          · simp [own, agrees]
      | false =>
        have later : (ordinary <|> some inst) ≠ none := by cases ordinary <;> simp
        simp only [own, ne_eq, not_true_eq_false, if_false, Bool.false_eq_true, ih, later,
          false_and, imp_false, true_and, false_implies]
        constructor
        · rintro ⟨owned, none, leading⟩
          exact ⟨owned, fun other member merge => absurd merge (none other member), none, leading⟩
        · rintro ⟨owned, _, none, leading⟩
          exact ⟨owned, none, leading⟩
    · simp [own]

theorem blockDefect?_eq_none_iff : graph.blockDefect? block = none ↔ graph.WellFormedAt block := by
  unfold blockDefect?
  by_cases empty : graph.instructions block = []
  · simp only [empty, List.isEmpty_nil, if_true, reduceCtorEq, false_iff]
    exact fun wellFormed => wellFormed.nonempty empty
  · simp only [List.isEmpty_iff, empty, if_false, Option.orElse_eq_none,
      edgeDefect?_eq_none_iff, instructionDefect?_eq_none_iff, true_and]
    constructor
    · rintro ⟨⟨forward, backward⟩, owned, agrees, leading⟩
      exact ⟨empty, forward, backward, owned, leading, agrees⟩
    · intro wellFormed
      exact ⟨⟨wellFormed.forward, wellFormed.backward⟩, wellFormed.owned, wellFormed.agrees,
        wellFormed.leading⟩

theorem defect?_eq_none : graph.defect? = none ↔ ∀ block ∈ graph.blocks, graph.WellFormedAt block := by
  simp only [defect?, List.findSome?_eq_none_iff, blockDefect?_eq_none_iff]

omit [DecidableEq β] in
/-- Edges that both ends list are listed by both ends the other way round, and without merges
nothing is left that an order could break. -/
theorem WellFormedAt.reverse (wellFormed : graph.WellFormedAt block) :
    graph.reverse.WellFormedAt block where
  nonempty := fun empty => wellFormed.nonempty (List.reverse_eq_nil_iff.mp empty)
  forward := wellFormed.backward
  backward := wellFormed.forward
  owned := fun inst member => wellFormed.owned inst (List.mem_reverse.mp member)
  leading := List.pairwise_of_forall fun _ _ merge => merge
  agrees := fun _ _ merge => by cases merge

theorem defect?_reverse (sound : graph.defect? = none) : graph.reverse.defect? = none :=
  defect?_eq_none.mpr fun block listed =>
    (defect?_eq_none.mp sound block (List.mem_reverse.mp listed)).reverse

end Defects

/-- Control goes from one instruction straight to another: to the next of the block, or from
the last of a block to the first of a successor that may be entered. -/
inductive Step (graph : FlowGraph β ι ν) (enters : β → Prop) : ι → ι → Prop where
  | within {block : β} {inst next : ι} {before after : List ι} (listed : block ∈ graph.blocks)
      (place : graph.instructions block = before ++ inst :: next :: after) :
      Step graph enters inst next
  | across {source target : β} {inst next : ι} (listed : source ∈ graph.blocks)
      (listedTarget : target ∈ graph.blocks) (edge : target ∈ graph.successors source)
      (allowed : enters target) (last : (graph.instructions source).getLast? = some inst)
      (first : (graph.instructions target).head? = some next) : Step graph enters inst next

theorem Step.source_listed {graph : FlowGraph β ι ν} {enters : β → Prop} {inst next : ι}
    (step : graph.Step enters inst next) : inst ∈ graph.program := by
  cases step with
  | within listed place => exact mem_program.mpr ⟨_, listed, by simp [place]⟩
  | across listed _ _ _ last _ => exact mem_program.mpr ⟨_, listed, List.mem_of_getLast? last⟩

theorem Step.target_listed {graph : FlowGraph β ι ν} {enters : β → Prop} {inst next : ι}
    (step : graph.Step enters inst next) : next ∈ graph.program := by
  cases step with
  | within listed place => exact mem_program.mpr ⟨_, listed, by simp [place]⟩
  | across _ listed _ _ _ first => exact mem_program.mpr ⟨_, listed, List.mem_of_head? first⟩

end FlowGraph

/-- A block in the middle leads back to the entry, to itself and on to the end. Coming from
itself it selects the value that it has just defined. -/
def Table.loops : Table where
  blocks := #[[0], [1, 2, 3], [4]]
  predecessors := #[[1], [0, 1], [1]]
  successors := #[[1], [0, 1, 2], []]
  rows := #[⟨0, some 0, some [9], none⟩, ⟨1, some 1, none, some [(0, 0), (1, 2)]⟩,
    ⟨1, some 2, some [1], none⟩, ⟨1, none, some [2], none⟩, ⟨2, none, some [2, 0], none⟩]
  arguments := [9]
  untracked := []
  entry := some 0

end Dataflow
