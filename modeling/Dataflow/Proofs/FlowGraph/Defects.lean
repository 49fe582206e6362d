import Dataflow.Proofs.FlowGraph.Control

/-! What the examination of a graph finds. It stops at the first defect, whatever else is wrong
with the graph; what it reports is there, and where it reports nothing, nothing is wrong with any
block. -/
namespace Dataflow.FlowGraph

variable {β ι ν : Type}

/-- The graph has this defect. A merge that comes late is named with the ordinary instruction that
its block has first. -/
inductive Shows (graph : FlowGraph β ι ν) : Defect β ι → Prop where
  | emptyBlock {block : β} (listed : block ∈ graph.blocks) (empty : graph.instructions block = []) :
    Shows graph (.emptyBlock block)
  | missingPredecessor {source target : β} (listed : source ∈ graph.blocks)
      (edge : target ∈ graph.successors source) (missing : source ∉ graph.predecessors target) :
    Shows graph (.missingPredecessor source target)
  | missingSuccessor {source target : β} (listed : target ∈ graph.blocks)
      (edge : source ∈ graph.predecessors target) (missing : target ∉ graph.successors source) :
    Shows graph (.missingSuccessor source target)
  | foreignInstruction {inst : ι} {block : β} (listed : block ∈ graph.blocks)
      (member : inst ∈ graph.instructions block) (foreign : graph.blockOf inst ≠ block) :
    Shows graph (.foreignInstruction inst block (graph.blockOf inst))
  | lateMerge {inst ordinary : ι} {block : β} (listed : block ∈ graph.blocks)
      (first : (graph.instructions block).find? (fun inst => !graph.isMerge inst) = some ordinary)
      (late : [ordinary, inst].Sublist (graph.instructions block))
      (merge : graph.isMerge inst = true) : Shows graph (.lateMerge inst block ordinary)
  | mergeMismatch {inst : ι} {block : β} (listed : block ∈ graph.blocks)
      (member : inst ∈ graph.instructions block) (merge : graph.isMerge inst = true)
      (differ : ¬ ∀ source, source ∈ (graph.incoming inst).map Prod.fst ↔
        source ∈ graph.predecessors block) :
    Shows graph (.mergeMismatch inst block ((graph.incoming inst).map Prod.fst)
      (graph.predecessors block))

theorem agrees_iff {graph : FlowGraph β ι ν} {block : β} {merge : ι} :
    graph.Agrees block merge ↔ ∀ source, source ∈ (graph.incoming merge).map Prod.fst ↔
      source ∈ graph.predecessors block := by
  simp only [Agrees, List.forall_mem_map, iff_iff_implies_and_implies, forall_and]

variable [DecidableEq β] {graph : FlowGraph β ι ν} {block : β} {defect : Defect β ι}

theorem shows_of_edgeDefect? (listed : block ∈ graph.blocks)
    (found : graph.edgeDefect? block = some defect) : graph.Shows defect := by
  rcases (Option.orElse_eq_some _ _ _).mp found with out | ⟨_, back⟩
  · obtain ⟨target, edge, report⟩ := List.exists_of_findSome?_eq_some out
    split at report
    · cases report
    · next missing =>
      cases report
      exact .missingPredecessor listed edge missing
  · obtain ⟨source, edge, report⟩ := List.exists_of_findSome?_eq_some back
    split at report
    · cases report
    · next missing =>
      cases report
      exact .missingSuccessor listed edge missing

/-- The scan carries the first ordinary instruction among those that it has passed. -/
theorem shows_of_instructionDefect? (listed : block ∈ graph.blocks) {passed rest : List ι}
    (place : graph.instructions block = passed ++ rest)
    (found : graph.instructionDefect? block (passed.find? fun inst => !graph.isMerge inst) rest =
      some defect) : graph.Shows defect := by
  induction rest generalizing passed with
  | nil => simp [instructionDefect?] at found
  | cons inst rest ih =>
    have member : inst ∈ graph.instructions block := by simp [place]
    have next : graph.instructions block = (passed ++ [inst]) ++ rest := by simp [place]
    rw [instructionDefect?.eq_def] at found
    dsimp only at found
    split at found
    · next foreign =>
      cases found
      exact .foreignInstruction listed member foreign
    · split at found
      · next merge =>
        split at found
        · next first earlier =>
          cases found
          have ahead : first ∈ passed := List.mem_of_find?_eq_some earlier
          refine .lateMerge listed ?_ ?_ merge
          · rw [place, List.find?_append, earlier]
            rfl
          · rw [place]
            exact (List.singleton_sublist.mpr ahead).append
              (List.singleton_sublist.mpr List.mem_cons_self)
        · next none =>
          split at found
          · refine ih next ?_
            rw [List.find?_append, none]
            simpa [merge] using found
          · next disagrees =>
            cases found
            exact .mergeMismatch listed member merge (mt agrees_iff.mpr disagrees)
      · next ordinary =>
        refine ih next ?_
        rw [List.find?_append]
        simpa [ordinary] using found

theorem shows_of_defect? (found : graph.defect? = some defect) : graph.Shows defect := by
  obtain ⟨block, listed, found⟩ := List.exists_of_findSome?_eq_some found
  unfold blockDefect? at found
  split at found
  · next empty =>
    cases found
    exact .emptyBlock listed (List.isEmpty_iff.mp empty)
  · rcases (Option.orElse_eq_some _ _ _).mp found with edge | ⟨_, inner⟩
    · exact shows_of_edgeDefect? listed edge
    · exact shows_of_instructionDefect? listed (List.nil_append _).symm inner

/-- A graph is accepted exactly if each of its blocks has instructions, lists its edges as their
other ends do, owns its instructions, and has all merges in front, each selecting from the
predecessors of the block. What is reported of any other graph is true of it. -/
theorem accepted_iff_consistent (graph : FlowGraph β ι ν) :
    (graph.defect? = none ↔ ∀ block ∈ graph.blocks,
      graph.instructions block ≠ [] ∧
      (∀ target ∈ graph.successors block, block ∈ graph.predecessors target) ∧
      (∀ source ∈ graph.predecessors block, block ∈ graph.successors source) ∧
      (∀ inst ∈ graph.instructions block, graph.blockOf inst = block) ∧
      (∀ ordinary merge, [ordinary, merge].Sublist (graph.instructions block) →
        graph.isMerge ordinary = false → graph.isMerge merge = false) ∧
      ∀ merge ∈ graph.instructions block, graph.isMerge merge = true →
        ∀ source, source ∈ (graph.incoming merge).map Prod.fst ↔
          source ∈ graph.predecessors block) ∧
    ∀ defect, graph.defect? = some defect → graph.Shows defect := by
  refine ⟨defect?_eq_none.trans (forall₂_congr fun block _ => ?_), fun _ => shows_of_defect?⟩
  simp only [← agrees_iff]
  constructor
  · intro wellFormed
    refine ⟨wellFormed.nonempty, wellFormed.forward, wellFormed.backward, wellFormed.owned, ?_,
      wellFormed.agrees⟩
    intro ordinary merge order notMerge
    have leading := List.pairwise_iff_forall_sublist.mp wellFormed.leading order
    exact Bool.eq_false_iff.mpr fun late => by simp [leading late] at notMerge
  · rintro ⟨nonempty, forward, backward, owned, leading, agrees⟩
    refine ⟨nonempty, forward, backward, owned, ?_, agrees⟩
    refine List.pairwise_iff_forall_sublist.mpr fun {earlier later} order merge => ?_
    by_contra ordinary
    simp [leading earlier later order (Bool.eq_false_iff.mpr ordinary)] at merge

end Dataflow.FlowGraph
