import Dataflow.Proofs.FlowGraph.Control
import Dataflow.Proofs.Ssa.Draft
import Dataflow.Ssa.Flow

/-! The graphs of finished functions. A draft that can be finished has a terminator at the end
of every block, and its edges are the targets of these terminators, listed at both ends. -/
namespace Dataflow.Ssa

namespace Draft

theorem mem_handles {draft : Draft} {block : Block} :
    block ∈ draft.handles ↔ block.index < draft.blocks.size := by
  unfold handles
  constructor
  · intro member
    obtain ⟨index, bound, rfl⟩ := List.mem_map.mp member
    exact List.mem_range.mp bound
  · intro bound
    exact List.mem_map.mpr ⟨block.index, List.mem_range.mpr bound, rfl⟩

theorem handles_nodup (draft : Draft) : draft.handles.Nodup :=
  List.nodup_range.map fun _ _ same => congrArg Block.index same

theorem mem_instHandles {draft : Draft} {inst : Inst} :
    inst ∈ draft.instHandles ↔ inst.index < draft.instructions.size := by
  unfold instHandles
  constructor
  · intro member
    obtain ⟨index, bound, rfl⟩ := List.mem_map.mp member
    exact List.mem_range.mp bound
  · intro bound
    exact List.mem_map.mpr ⟨inst.index, List.mem_range.mpr bound, rfl⟩

theorem instHandles_nodup (draft : Draft) : draft.instHandles.Nodup :=
  List.nodup_range.map fun _ _ same => congrArg Inst.index same

theorem mem_handles_of_placed {draft : Draft} {block : Block} {inst : Inst}
    (member : inst ∈ draft.placed block) : block ∈ draft.handles := by
  apply mem_handles.mpr
  rw [placed] at member
  cases found : draft.block? block with
  | none => simp [found] at member
  | some info => exact (Array.getElem?_eq_some_iff.mp found).1

/-- No instruction is listed twice, in one block or in two. -/
theorem Coherent.placed_nodup {draft : Draft} (coherent : draft.Coherent) :
    (draft.handles.flatMap draft.placed).Nodup := by
  refine List.nodup_flatMap.mpr ⟨fun block _ => ?_, ?_⟩
  · refine (coherent.ascending block).imp fun {earlier later} less same => ?_
    rw [same] at less
    exact Nat.lt_irrefl _ less
  · refine draft.handles_nodup.imp fun {first second} apart inst here there => ?_
    obtain ⟨instruction, found, owner⟩ := coherent.owned first inst here
    obtain ⟨other, foundOther, ownerOther⟩ := coherent.owned second inst there
    cases found.symm.trans foundOther
    exact apart (owner.symm.trans ownerOther)

theorem targets_eq_ok {draft : Draft} {block : Block} {targets : List Block} :
    draft.targets block = .ok targets ↔ ∃ last opcode, (draft.placed block).getLast? = some last ∧
      draft.opcode? last = some opcode ∧ opcode.isTerminator = true ∧ opcode.successors = targets := by
  have last : ((draft.block? block).bind fun info => info.instructions.getLast?) =
      (draft.placed block).getLast? := by
    rw [placed]
    cases draft.block? block <;> rfl
  unfold Draft.targets
  rw [last]
  cases (draft.placed block).getLast? with
  | none => simp
  | some last =>
    cases found : draft.opcode? last with
    | none => simp [found]
    | some opcode => cases terminator : opcode.isTerminator <;> simp [found, terminator]

/-- Where control goes from the end of a block, and nowhere if it has none. -/
def exits (draft : Draft) (block : Block) : List Block := (draft.targets block).toOption.getD []

theorem exits_eq {draft : Draft} {block : Block} {targets : List Block}
    (ends : draft.targets block = .ok targets) : draft.exits block = targets := by
  rw [exits, ends]
  rfl

def edgeList (draft : Draft) : List (Block × Block) :=
  draft.handles.flatMap fun block => (draft.exits block).map fun target => (block, target)

theorem mem_edgeList {draft : Draft} {source target : Block} :
    (source, target) ∈ draft.edgeList ↔ source ∈ draft.handles ∧ target ∈ draft.exits source := by
  simp [edgeList]

theorem edges_eq_ok {draft : Draft} {edges : List (Block × Block)} :
    draft.edges = .ok edges ↔
      (∀ block ∈ draft.handles, ∃ targets, draft.targets block = .ok targets) ∧
        draft.edgeList = edges := by
  have listed (each : ∀ block ∈ draft.handles, ∃ targets, draft.targets block = .ok targets) :
      draft.edges = .ok draft.edgeList := by
    refine Fallible.bind_eq_ok.mpr ⟨draft.handles.map fun block =>
      (draft.exits block).map fun target => (block, target), ?_, ?_⟩
    · refine Fallible.mapM_eq_map fun block known => ?_
      obtain ⟨targets, ends⟩ := each block known
      rw [exits_eq ends]
      exact Fallible.bind_eq_ok.mpr ⟨targets, ends, rfl⟩
    · rw [edgeList, List.flatMap_def]
      rfl
  constructor
  · intro found
    obtain ⟨perBlock, run, _⟩ := Fallible.bind_eq_ok.mp found
    have each : ∀ block ∈ draft.handles, ∃ targets, draft.targets block = .ok targets := by
      intro block known
      obtain ⟨_, made⟩ := Fallible.exists_of_mapM run block known
      obtain ⟨targets, ends, _⟩ := Fallible.bind_eq_ok.mp made
      exact ⟨targets, ends⟩
    exact ⟨each, Except.ok.inj ((listed each).symm.trans found)⟩
  · rintro ⟨each, rfl⟩
    exact listed each

/-- The edges are the targets of the terminators. -/
theorem mem_edges {draft : Draft} {edges : List (Block × Block)} (found : draft.edges = .ok edges) :
    (∀ block ∈ draft.handles, ∃ targets, draft.targets block = .ok targets) ∧
      ∀ source target, (source, target) ∈ edges ↔ source ∈ draft.handles ∧
        ∃ targets, draft.targets source = .ok targets ∧ target ∈ targets := by
  obtain ⟨each, rfl⟩ := edges_eq_ok.mp found
  refine ⟨each, fun source target => mem_edgeList.trans (and_congr_right fun known => ?_)⟩
  obtain ⟨targets, ends⟩ := each source known
  simp [exits_eq ends, ends]

theorem checkPhi_eq_ok {edges : List (Block × Block)} {inst : Inst} {instruction : Instruction} :
    checkPhi edges inst instruction = .ok () ↔ (instruction.opcode.incoming.map Prod.fst).Nodup ∧
      ∀ source, source ∈ instruction.opcode.incoming.map Prod.fst ↔
        (source, instruction.block) ∈ edges := by
  have predecessor : ∀ source, source ∈ (edges.filter fun edge => edge.2 = instruction.block).map
      Prod.fst ↔ (source, instruction.block) ∈ edges := fun source => by simp
  simp only [← predecessor]
  unfold checkPhi
  dsimp only
  split
  · next repeated => simp [repeated]
  · next distinct =>
    rw [not_not] at distinct
    split
    · next same =>
      exact ⟨fun _ => ⟨distinct, fun source => ⟨same.1 source, same.2 source⟩⟩, fun _ => rfl⟩
    · next other =>
      refine ⟨nofun, fun same => absurd ?_ other⟩
      exact ⟨fun source => (same.2 source).mp, fun source => (same.2 source).mpr⟩

theorem checkPhis_eq_ok {draft : Draft} {edges : List (Block × Block)} :
    draft.checkPhis edges = .ok () ↔ ∀ inst instruction, draft.instruction? inst = some instruction →
      instruction.opcode.isPhi = true → checkPhi edges inst instruction = .ok () := by
  unfold checkPhis
  rw [Fallible.forM_eq_ok]
  constructor
  · intro checked inst instruction found phi
    have known := mem_instHandles.mpr (Array.getElem?_eq_some_iff.mp found).1
    simpa only [found, phi, if_true] using checked inst known
  · intro checked inst _
    split
    · next instruction found =>
      split
      · next phi => exact checked inst instruction found phi
      · rfl
    · rfl

/-- A function has the tables of its draft, and rows of edges. -/
theorem toFunction_eq_ok {draft : Draft} {function : Function}
    (built : draft.toFunction = .ok function) :
    ∃ edges, draft.edges = .ok edges ∧ draft.checkPhis edges = .ok () ∧
      function.toDraft = draft ∧
      function.predecessors = (draft.handles.map fun block =>
        (edges.filter fun edge => edge.2 = block).map Prod.fst).toArray ∧
      function.successors = (draft.handles.map fun block =>
        (edges.filter fun edge => edge.1 = block).map Prod.snd).toArray := by
  obtain ⟨edges, found, run⟩ := Fallible.bind_eq_ok.mp built
  obtain ⟨checked, same⟩ := Fallible.check_eq_ok.mp run
  cases same
  exact ⟨edges, found, checked, rfl, rfl, rfl⟩

theorem getElem?_rows (draft : Draft) (row : Block → List Block) (block : Block) :
    (draft.handles.map row).toArray[block.index]? =
      if block ∈ draft.handles then some (row block) else none := by
  split
  · next known =>
    have bound := mem_handles.mp known
    simp [handles, bound]
  · next unknown =>
    have outside : draft.blocks.size ≤ block.index := Nat.le_of_not_lt (mt mem_handles.mpr unknown)
    simp [handles, outside]

theorem getD_rows (draft : Draft) (row : Block → List Block) (block : Block) :
    ((draft.handles.map row).toArray[block.index]?).getD [] =
      if block ∈ draft.handles then row block else [] := by
  rw [getElem?_rows]
  split <;> rfl

end Draft

structure Function.Finished (function : Function) (edges : List (Block × Block)) : Prop where
  coherent : function.toDraft.Coherent
  found : function.toDraft.edges = .ok edges
  checked : function.toDraft.checkPhis edges = .ok ()
  predecessors : ∀ source target, source ∈ function.graph.predecessors target ↔
    target ∈ function.handles ∧ (source, target) ∈ edges
  successors : ∀ source target, target ∈ function.graph.successors source ↔
    source ∈ function.handles ∧ (source, target) ∈ edges
  rows : ∀ block ∈ function.handles,
    function.predecessorsOf block = .ok (function.graph.predecessors block) ∧
      function.successorsOf block = .ok (function.graph.successors block)

theorem Draft.Coherent.finished {draft : Draft} (coherent : draft.Coherent) {function : Function}
    (built : draft.toFunction = .ok function) : ∃ edges, function.Finished edges := by
  obtain ⟨edges, found, checked, rfl, predecessors, successors⟩ := Draft.toFunction_eq_ok built
  refine ⟨edges, coherent, found, checked, fun source target => ?_, fun source target => ?_,
    fun block known => ⟨?_, ?_⟩⟩
  · have row : function.graph.predecessors target = _ :=
      (congrArg (fun table => (table[target.index]?).getD []) predecessors).trans
        (function.toDraft.getD_rows _ target)
    rw [row]
    by_cases known : target ∈ function.handles <;> simp [known]
  · have row : function.graph.successors source = _ :=
      (congrArg (fun table => (table[source.index]?).getD []) successors).trans
        (function.toDraft.getD_rows _ source)
    rw [row]
    by_cases known : source ∈ function.handles <;> simp [known]
  · refine Function.predecessorsOf_eq_ok.mpr ?_
    dsimp only [Function.graph]
    rw [predecessors, Draft.getElem?_rows, if_pos known, Option.getD_some]
  · refine Function.successorsOf_eq_ok.mpr ?_
    dsimp only [Function.graph]
    rw [successors, Draft.getElem?_rows, if_pos known, Option.getD_some]

namespace Function.Finished

variable {function : Function} {edges : List (Block × Block)} (finished : function.Finished edges)

include finished

/-- Both ends of an edge are blocks of the function. -/
theorem edge_known {source target : Block} (edge : (source, target) ∈ edges) :
    source ∈ function.handles ∧ target ∈ function.handles := by
  obtain ⟨handle, targets, ends, member⟩ := ((Draft.mem_edges finished.found).2 source target).mp edge
  obtain ⟨last, opcode, _, found, _, rfl⟩ := Draft.targets_eq_ok.mp ends
  exact ⟨handle, Draft.mem_handles.mpr (finished.coherent.targets last opcode found target member)⟩

theorem closedForward : function.graph.ClosedForward := by
  intro source _ target member
  exact (finished.edge_known ((finished.successors source target).mp member).2).2

theorem closedBackward : function.graph.ClosedBackward := by
  intro target _ source member
  exact (finished.edge_known ((finished.predecessors source target).mp member).2).1

/-- Every block ends with a terminator. -/
theorem exists_terminator {block : Block} (listed : block ∈ function.handles) :
    ∃ last ∈ function.placed block, function.isPhi last = false := by
  obtain ⟨targets, ends⟩ := (Draft.mem_edges finished.found).1 block listed
  obtain ⟨last, opcode, placed, found, terminator, _⟩ := Draft.targets_eq_ok.mp ends
  refine ⟨last, List.mem_of_getLast? placed, ?_⟩
  rw [Draft.isPhi, found]
  cases opcode <;> simp_all [Opcode.isTerminator, Opcode.isPhi]

theorem program_nodup : function.graph.program.Nodup := finished.coherent.placed_nodup

theorem agrees {block : Block} {inst : Inst} (member : inst ∈ function.placed block)
    (phi : function.isPhi inst = true) (listed : block ∈ function.handles) :
    function.graph.Agrees block inst := by
  obtain ⟨instruction, found, owner⟩ := finished.coherent.owned block inst member
  have isPhi : instruction.opcode.isPhi = true := by
    simpa [Draft.isPhi, Draft.opcode?, found] using phi
  have checked := Draft.checkPhis_eq_ok.mp finished.checked inst instruction found isPhi
  have incoming : function.graph.incoming inst = instruction.opcode.incoming := by
    simp [Function.graph, Draft.opcode?, found]
  have sources : ∀ source, source ∈ (function.graph.incoming inst).map Prod.fst ↔
      source ∈ function.graph.predecessors block := by
    intro source
    rw [incoming, (Draft.checkPhi_eq_ok.mp checked).2, owner, finished.predecessors]
    simp [listed]
  exact ⟨fun pair given => (sources pair.1).mp (List.mem_map_of_mem given),
    fun source given => (sources source).mpr given⟩

/-- A finished function has no defect. -/
theorem defect?_eq_none : function.graph.defect? = none := by
  refine FlowGraph.defect?_eq_none.mpr fun block listed => ?_
  refine ⟨?_, ?_, ?_, ?_, finished.coherent.leading block, ?_⟩
  · obtain ⟨last, member, _⟩ := finished.exists_terminator listed
    exact List.ne_nil_of_mem member
  · intro target member
    have edge := ((finished.successors block target).mp member).2
    exact (finished.predecessors block target).mpr ⟨(finished.edge_known edge).2, edge⟩
  · intro source member
    have edge := ((finished.predecessors source block).mp member).2
    exact (finished.successors source block).mpr ⟨(finished.edge_known edge).1, edge⟩
  · intro inst member
    obtain ⟨instruction, found, owner⟩ := finished.coherent.owned block inst member
    simp [Function.graph, found, owner]
  · intro inst member phi
    exact finished.agrees member phi listed

theorem blockOf_eq_ok {block : Block} {inst : Inst}
    (member : inst ∈ function.graph.instructions block) : function.blockOf inst = .ok block := by
  obtain ⟨instruction, found, owner⟩ := finished.coherent.owned block inst member
  simp [Function.blockOf, found, owner]

end Function.Finished

/-- A loop that counts down: its phi selects the argument at first, and its own decrement from
then on. -/
def Step.countdown : List Step :=
  [.argument, .constant 1, .block none, .block none, .block none,
    .append ⟨0⟩ (.branch ⟨1⟩),
    .append ⟨1⟩ (.phi [(⟨0⟩, ⟨0⟩)]), .append ⟨1⟩ (.binary .sub ⟨2⟩ ⟨1⟩),
    .addIncoming ⟨2⟩ ⟨1⟩ ⟨3⟩, .append ⟨1⟩ (.branchIf ⟨3⟩ ⟨1⟩ ⟨2⟩),
    .append ⟨2⟩ (.ret (some ⟨3⟩))]

end Dataflow.Ssa
