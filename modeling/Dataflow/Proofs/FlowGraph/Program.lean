import Dataflow.FlowGraph.Basic
import Mathlib.Data.List.Nodup

/-! Programs in which no instruction is listed twice: an instruction then has one block and
one place in it. -/
namespace Dataflow.FlowGraph

variable {β ι ν : Type} {graph : FlowGraph β ι ν}

theorem mem_program {inst : ι} :
    inst ∈ graph.program ↔ ∃ block ∈ graph.blocks, inst ∈ graph.instructions block :=
  List.mem_flatMap

theorem instructionCount_eq (graph : FlowGraph β ι ν) :
    graph.instructionCount = graph.program.length := by
  unfold instructionCount program
  induction graph.blocks with
  | nil => rfl
  | cons block blocks ih => rw [List.foldr_cons, ih, List.flatMap_cons, List.length_append]

theorem instructions_nodup (distinct : graph.program.Nodup) {block : β}
    (listed : block ∈ graph.blocks) : (graph.instructions block).Nodup :=
  (List.nodup_flatMap.mp distinct).1 block listed

theorem eq_of_mem_instructions (distinct : graph.program.Nodup) {first second : β} {inst : ι}
    (listedFirst : first ∈ graph.blocks) (listedSecond : second ∈ graph.blocks)
    (memberFirst : inst ∈ graph.instructions first)
    (memberSecond : inst ∈ graph.instructions second) : first = second := by
  have apart := List.pairwise_iff_getElem.mp (List.nodup_flatMap.mp distinct).2
  obtain ⟨i, boundFirst, rfl⟩ := List.mem_iff_getElem.mp listedFirst
  obtain ⟨j, boundSecond, rfl⟩ := List.mem_iff_getElem.mp listedSecond
  rcases Nat.lt_trichotomy i j with less | rfl | less
  · exact absurd memberSecond (apart i j boundFirst boundSecond less memberFirst)
  · rfl
  · exact absurd memberFirst (apart j i boundSecond boundFirst less memberSecond)

theorem program_reverse (graph : FlowGraph β ι ν) :
    graph.reverse.program = graph.program.reverse :=
  List.reverse_flatMap.symm

end Dataflow.FlowGraph
