import Dataflow.Proofs.Fact.Order
import Dataflow.Proofs.FlowGraph.Program
import Dataflow.Solver.Session

/-! Data-flow equations. A system says how facts meet at a block, how an instruction turns the
fact before it into the fact after it, and what stands at the boundary. A store solves it when
passing every block's inflow through the block gives the stored facts back. -/
namespace Dataflow

/-- Meet and transfer as functions of facts alone. -/
structure Operators (β ι : Type) where
  meet : β → List (Neighbor β) → Fact
  transfer : ι → Fact → Fact

namespace Operators

variable {β ι : Type} (ops : Operators β ι)

/-- Passes a fact through instructions and lists what comes out of each. -/
def thread : Fact → List ι → List (ι × Fact)
  | _, [] => []
  | input, inst :: rest =>
    (inst, ops.transfer inst input) :: thread (ops.transfer inst input) rest

def through (input : Fact) (insts : List ι) : Fact :=
  insts.foldl (fun fact inst => ops.transfer inst fact) input

@[simp] theorem map_fst_thread (input : Fact) (insts : List ι) :
    (ops.thread input insts).map Prod.fst = insts := by
  induction insts generalizing input with
  | nil => rfl
  | cons inst rest ih => simp [thread, ih]

theorem thread_append (input : Fact) (first second : List ι) :
    ops.thread input (first ++ second) =
      ops.thread input first ++ ops.thread (ops.through input first) second := by
  induction first generalizing input with
  | nil => rfl
  | cons inst rest ih =>
    simp only [List.cons_append, thread, ih]
    rfl

theorem through_concat (input : Fact) (insts : List ι) (inst : ι) :
    ops.through input (insts ++ [inst]) = ops.transfer inst (ops.through input insts) := by
  simp [through]

theorem mem_thread {input : Fact} {insts : List ι} {output : ι × Fact} :
    output ∈ ops.thread input insts ↔ ∃ before after, insts = before ++ output.1 :: after ∧
      output.2 = ops.transfer output.1 (ops.through input before) := by
  constructor
  · intro member
    induction insts generalizing input with
    | nil => simp [thread] at member
    | cons inst rest ih =>
      simp only [thread, List.mem_cons] at member
      rcases member with rfl | later
      · exact ⟨[], rest, rfl, rfl⟩
      · obtain ⟨before, after, split, value⟩ := ih later
        exact ⟨inst :: before, after, by rw [split]; rfl, value⟩
  · rintro ⟨before, after, rfl, value⟩
    rw [thread_append, List.mem_append, ← Prod.eta output, value]
    exact Or.inr List.mem_cons_self

/-- What comes out of an instruction went into the next one. -/
theorem thread_adjacent (input : Fact) (before after : List ι) (previous inst : ι) :
    ∃ fact, (previous, fact) ∈ ops.thread input (before ++ previous :: inst :: after) ∧
      (inst, ops.transfer inst fact) ∈ ops.thread input (before ++ previous :: inst :: after) := by
  refine ⟨ops.transfer previous (ops.through input before), ops.mem_thread.mpr ?_,
    ops.mem_thread.mpr ?_⟩
  · exact ⟨before, inst :: after, rfl, rfl⟩
  · exact ⟨before ++ [previous], after, by simp, by rw [through_concat]⟩

/-- A property that the first instruction gets from the input, and every other one from the
one before it, holds of all. -/
theorem thread_forall (property : ι → Fact → Prop) {input : Fact} {insts : List ι}
    (first : ∀ inst rest, insts = inst :: rest → property inst (ops.transfer inst input))
    (next : ∀ before previous inst after fact, insts = before ++ previous :: inst :: after →
      property previous fact → property inst (ops.transfer inst fact)) :
    ∀ output ∈ ops.thread input insts, property output.1 output.2 := by
  induction insts generalizing input with
  | nil => simp [thread]
  | cons inst rest ih =>
    have here := first inst rest rfl
    intro output member
    simp only [thread, List.mem_cons] at member
    rcases member with rfl | later
    · exact here
    · refine ih ?_ ?_ output later
      · rintro second rest rfl
        exact next [] inst second rest _ rfl here
      · rintro before previous second after fact rfl
        exact next (inst :: before) previous second after fact rfl

structure Sized (width : Nat) : Prop where
  meet : ∀ block neighbors, neighbors ≠ [] →
    (∀ neighbor ∈ neighbors, neighbor.fact.width = width) → (ops.meet block neighbors).width = width
  transfer : ∀ inst input, input.width = width → (ops.transfer inst input).width = width

end Operators

namespace Store

variable {ι : Type} [DecidableEq ι]

def record (store : Store ι) (outputs : List (ι × Fact)) : Store ι :=
  outputs.foldl (fun store output => store.set output.1 output.2) store

theorem record_cons (store : Store ι) (output : ι × Fact) (rest : List (ι × Fact)) :
    store.record (output :: rest) = record (store.set output.1 output.2) rest := rfl

theorem get?_record_of_not_mem {store : Store ι} {outputs : List (ι × Fact)} {inst : ι}
    (absent : inst ∉ outputs.map Prod.fst) :
    (store.record outputs).get? inst = store.get? inst := by
  induction outputs generalizing store with
  | nil => rfl
  | cons output rest ih =>
    simp only [List.map_cons, List.mem_cons, not_or] at absent
    rw [record_cons, ih absent.2, Assignment.get?_set_ne _ _ absent.1]

theorem get?_record_of_mem {store : Store ι} {outputs : List (ι × Fact)} {inst : ι} {fact : Fact}
    (distinct : (outputs.map Prod.fst).Nodup) (member : (inst, fact) ∈ outputs) :
    (store.record outputs).get? inst = some fact := by
  induction outputs generalizing store with
  | nil => simp at member
  | cons output rest ih =>
    rw [List.map_cons, List.nodup_cons] at distinct
    rw [record_cons]
    rcases List.mem_cons.mp member with rfl | later
    · rw [get?_record_of_not_mem distinct.1, Assignment.get?_set_self]
    · exact ih distinct.2 later

/-- Storing facts that are there already changes nothing. -/
theorem record_eq_self {store : Store ι} {outputs : List (ι × Fact)}
    (stored : ∀ output ∈ outputs, store.get? output.1 = some output.2) :
    store.record outputs = store := by
  induction outputs with
  | nil => rfl
  | cons output rest ih =>
    rw [record_cons, Assignment.set_eq_self (stored output (by simp))]
    exact ih fun later member => stored later (by simp [member])

/-- Exactly these instructions have a fact, and every fact has this width. -/
structure Fills (store : Store ι) (insts : List ι) (width : Nat) : Prop where
  listed : ∀ inst, (store.get? inst).isSome ↔ inst ∈ insts
  sized : ∀ inst fact, store.get? inst = some fact → fact.width = width

end Store

theorem Direction.mem_blockOrder {β ι ν : Type} (direction : Direction) (graph : FlowGraph β ι ν)
    {block : β} : block ∈ direction.blockOrder graph ↔ block ∈ graph.blocks := by
  cases direction <;> simp [Direction.blockOrder]

/-- Going backward a block is left through its first instruction. -/
theorem Direction.exit?_backward {β ι ν : Type} (graph : FlowGraph β ι ν) (block : β) :
    Direction.exit? .backward graph block = (graph.instructions block).head? :=
  List.getLast?_reverse

/-- The equations of one run: the operators on a graph, for facts of one width. -/
structure System (β ι ν : Type) extends Operators β ι where
  direction : Direction
  graph : FlowGraph β ι ν
  width : Nat
  boundary : Fact

namespace System

variable {β ι ν : Type} (system : System β ι ν)

def order (block : β) : List ι := system.direction.instructionOrder system.graph block

theorem mem_order {block : β} {inst : ι} :
    inst ∈ system.order block ↔ inst ∈ system.graph.instructions block := by
  unfold order Direction.instructionOrder
  cases system.direction <;> simp

theorem mem_blockOrder {block : β} :
    block ∈ system.direction.blockOrder system.graph ↔ block ∈ system.graph.blocks :=
  system.direction.mem_blockOrder system.graph

theorem mem_program_of_order {block : β} {inst : ι} (listed : block ∈ system.graph.blocks)
    (member : inst ∈ system.order block) : inst ∈ system.graph.program :=
  List.mem_flatMap.mpr ⟨block, listed, system.mem_order.mp member⟩

variable {system} in
theorem order_nodup (distinct : system.graph.program.Nodup) {block : β}
    (listed : block ∈ system.graph.blocks) : (system.order block).Nodup := by
  have nodup := FlowGraph.instructions_nodup distinct listed
  unfold order Direction.instructionOrder
  cases system.direction with
  | forward => exact nodup
  | backward => exact List.nodup_reverse.mpr nodup

structure Sized : Prop extends Operators.Sized system.toOperators system.width where
  boundary : system.boundary.width = system.width

variable {system} in
theorem thread_sized (sized : system.Sized) {input : Fact} (width : input.width = system.width)
    (insts : List ι) : ∀ output ∈ system.thread input insts, output.2.width = system.width := by
  refine system.thread_forall (fun _ fact => fact.width = system.width) ?_ ?_
  · intro inst _ _
    exact sized.transfer inst input width
  · intro _ _ inst _ fact _ kept
    exact sized.transfer inst fact kept

variable [DecidableEq ι]

abbrev Covers (store : Store ι) : Prop := store.Fills system.graph.program system.width

variable {system} in
theorem Covers.exists_fact {store : Store ι} (covers : system.Covers store) {inst : ι}
    (listed : inst ∈ system.graph.program) :
    ∃ fact, store.get? inst = some fact ∧ fact.width = system.width := by
  obtain ⟨fact, found⟩ := Option.isSome_iff_exists.mp ((covers.listed inst).mpr listed)
  exact ⟨fact, found, covers.sized inst fact found⟩

def arriving (store : Store ι) (block : β) : List (Neighbor β) :=
  (system.direction.neighbors system.graph block).filterMap fun neighbor =>
    (system.direction.exit? system.graph neighbor).bind fun inst =>
      (store.get? inst).map fun fact => ⟨neighbor, fact⟩

theorem mem_arriving {store : Store ι} {block : β} {neighbor : Neighbor β} :
    neighbor ∈ system.arriving store block ↔
      neighbor.block ∈ system.direction.neighbors system.graph block ∧
      ∃ inst, system.direction.exit? system.graph neighbor.block = some inst ∧
        store.get? inst = some neighbor.fact := by
  simp only [arriving, List.mem_filterMap, Option.bind_eq_some_iff, Option.map_eq_some_iff]
  constructor
  · rintro ⟨source, member, inst, exit, fact, found, rfl⟩
    exact ⟨member, inst, exit, found⟩
  · rintro ⟨member, inst, exit, found⟩
    exact ⟨neighbor.block, member, inst, exit, neighbor.fact, found, rfl⟩

variable {system} in
theorem Covers.arriving_sized {store : Store ι} (covers : system.Covers store) {block : β} :
    ∀ neighbor ∈ system.arriving store block, neighbor.fact.width = system.width := by
  intro neighbor member
  obtain ⟨_, inst, _, found⟩ := system.mem_arriving.mp member
  exact covers.sized inst neighbor.fact found

variable {system} in
/-- A neighbour that is left through a listed instruction does arrive. -/
theorem Covers.arrives {store : Store ι} (covers : system.Covers store) {block neighbor : β}
    {inst : ι} (beside : neighbor ∈ system.direction.neighbors system.graph block)
    (exit : system.direction.exit? system.graph neighbor = some inst)
    (listed : inst ∈ system.graph.program) :
    ∃ fact, store.get? inst = some fact ∧ ⟨neighbor, fact⟩ ∈ system.arriving store block := by
  obtain ⟨fact, found, _⟩ := covers.exists_fact listed
  exact ⟨fact, found, system.mem_arriving.mpr ⟨beside, inst, exit, found⟩⟩

variable {system} in
/-- Recording facts for listed instructions keeps the store's shape. -/
theorem Covers.record {store : Store ι} (covers : system.Covers store) {outputs : List (ι × Fact)}
    (listed : ∀ output ∈ outputs, output.1 ∈ system.graph.program)
    (sized : ∀ output ∈ outputs, output.2.width = system.width) :
    system.Covers (store.record outputs) := by
  induction outputs generalizing store with
  | nil => exact covers
  | cons output rest ih =>
    rw [Store.record_cons]
    refine ih ⟨fun inst => ?_, fun inst fact => ?_⟩
      (fun later member => listed later (by simp [member]))
      (fun later member => sized later (by simp [member]))
    · rw [Assignment.get?_set]
      split
      · next same => simp [same, listed output (by simp)]
      · exact covers.listed inst
    · rw [Assignment.get?_set]
      split
      · rintro ⟨⟩
        exact sized output (by simp)
      · exact covers.sized inst fact

variable [DecidableEq β]

def inflow (store : Store ι) (block : β) : EntryFact :=
  if system.direction.usesBoundary system.graph block || (system.arriving store block).isEmpty then
    .boundary system.boundary
  else .meet (system.meet block (system.arriving store block))

def outputs (store : Store ι) (block : β) : List (ι × Fact) :=
  system.thread (system.inflow store block).fact (system.order block)

def settle (store : Store ι) (block : β) : Store ι := store.record (system.outputs store block)

/-- The store after all blocks have been worked through in turn, each one on the facts that
the ones before it left. -/
def round (store : Store ι) : Store ι :=
  (system.direction.blockOrder system.graph).foldl system.settle store

/-- Every block gives back the facts that are stored. -/
def Solves (store : Store ι) : Prop :=
  ∀ block ∈ system.graph.blocks, ∀ output ∈ system.outputs store block,
    store.get? output.1 = some output.2

instance (store : Store ι) : Decidable (system.Solves store) :=
  inferInstanceAs (Decidable (∀ _ ∈ _, ∀ _ ∈ _, _))

variable {system}

theorem inflow_of_usesBoundary {store : Store ι} {block : β}
    (outer : system.direction.usesBoundary system.graph block = true) :
    system.inflow store block = .boundary system.boundary := by
  simp [inflow, outer]

theorem inflow_of_arriving {store : Store ι} {block : β}
    (inner : system.direction.usesBoundary system.graph block = false) {neighbor : Neighbor β}
    (arrives : neighbor ∈ system.arriving store block) :
    system.inflow store block = .meet (system.meet block (system.arriving store block)) := by
  have some : (system.arriving store block).isEmpty = false := by
    simpa using List.ne_nil_of_mem arrives
  simp [inflow, inner, some]

@[simp] theorem map_fst_outputs (store : Store ι) (block : β) :
    (system.outputs store block).map Prod.fst = system.order block :=
  system.map_fst_thread _ _

theorem mem_order_of_output {store : Store ι} {block : β} {output : ι × Fact}
    (member : output ∈ system.outputs store block) : output.1 ∈ system.order block := by
  rw [← map_fst_outputs store block]
  exact List.mem_map_of_mem member

theorem exists_output (store : Store ι) {block : β} {inst : ι}
    (member : inst ∈ system.order block) : ∃ fact, (inst, fact) ∈ system.outputs store block := by
  rw [← map_fst_outputs store block] at member
  obtain ⟨output, found, rfl⟩ := List.mem_map.mp member
  exact ⟨output.2, found⟩

theorem inflow_sized {store : Store ι} (sized : system.Sized) (covers : system.Covers store)
    (block : β) : (system.inflow store block).fact.width = system.width := by
  unfold inflow
  split
  · exact sized.boundary
  · next inner =>
    simp only [Bool.or_eq_true, List.isEmpty_iff, not_or] at inner
    exact sized.meet block _ inner.2 covers.arriving_sized

theorem outputs_sized {store : Store ι} (sized : system.Sized) (covers : system.Covers store)
    (block : β) : ∀ output ∈ system.outputs store block, output.2.width = system.width :=
  thread_sized sized (inflow_sized sized covers block) _

theorem Covers.settle {store : Store ι} (sized : system.Sized) (covers : system.Covers store)
    {block : β} (listed : block ∈ system.graph.blocks) :
    system.Covers (system.settle store block) :=
  covers.record (fun _ member => system.mem_program_of_order listed (mem_order_of_output member))
    (outputs_sized sized covers block)

theorem Covers.round {store : Store ι} (sized : system.Sized) (covers : system.Covers store) :
    system.Covers (system.round store) := by
  refine List.foldlRecOn _ _ covers ?_
  intro store covers block member
  exact covers.settle sized (system.mem_blockOrder.mp member)

theorem get?_settle_of_output (distinct : system.graph.program.Nodup) {store : Store ι} {block : β}
    (listed : block ∈ system.graph.blocks) {inst : ι} {fact : Fact}
    (member : (inst, fact) ∈ system.outputs store block) :
    (system.settle store block).get? inst = some fact := by
  apply Store.get?_record_of_mem _ member
  rw [map_fst_outputs]
  exact order_nodup distinct listed

theorem get?_settle_of_not_mem {store : Store ι} {block : β} {inst : ι}
    (absent : inst ∉ system.order block) :
    (system.settle store block).get? inst = store.get? inst := by
  apply Store.get?_record_of_not_mem
  rwa [map_fst_outputs]

/-- A store that solves the equations stays as it is when a block is worked through. -/
theorem Solves.settle {store : Store ι} (solves : system.Solves store) {block : β}
    (listed : block ∈ system.graph.blocks) : system.settle store block = store :=
  Store.record_eq_self (solves block listed)

theorem Solves.round {store : Store ι} (solves : system.Solves store) :
    system.round store = store := by
  refine List.foldlRecOn (motive := fun current => current = store) _ _ rfl ?_
  rintro _ rfl block member
  exact solves.settle (system.mem_blockOrder.mp member)

/-- In a solution the first instruction of a block has what the inflow is turned into. -/
theorem Solves.first {store : Store ι} (solves : system.Solves store) {block : β}
    (listed : block ∈ system.graph.blocks) {inst : ι} {rest : List ι}
    (place : system.order block = inst :: rest) :
    store.get? inst = some (system.transfer inst (system.inflow store block).fact) := by
  refine solves block listed (inst, _) ?_
  rw [outputs, place]
  exact List.mem_cons_self

/-- In a solution every other instruction has what the fact of the one before it is turned
into. -/
theorem Solves.next {store : Store ι} (solves : system.Solves store) {block : β}
    (listed : block ∈ system.graph.blocks) {previous inst : ι} {before after : List ι}
    (place : system.order block = before ++ previous :: inst :: after) :
    ∃ fact, store.get? previous = some fact ∧ store.get? inst = some (system.transfer inst fact) := by
  obtain ⟨fact, given, turned⟩ := system.thread_adjacent (system.inflow store block).fact
    before after previous inst
  rw [← place] at given turned
  exact ⟨fact, solves block listed _ given, solves block listed _ turned⟩

/-- Every instruction of a solution has been given something to transfer. -/
theorem Solves.exists_input {store : Store ι} (solves : system.Solves store) {inst : ι}
    (listed : inst ∈ system.graph.program) :
    ∃ input, store.get? inst = some (system.transfer inst input) := by
  obtain ⟨block, listedBlock, member⟩ := FlowGraph.mem_program.mp listed
  obtain ⟨fact, given⟩ := exists_output store (system.mem_order.mpr member)
  obtain ⟨before, _, _, value⟩ := system.mem_thread.mp given
  have stored := solves block listedBlock _ given
  simp only at value stored
  exact ⟨_, value ▸ stored⟩

/-- A property of stored facts survives work on a block if the block's first instruction gets
it from the inflow and every other one from the instruction before it. -/
theorem settle_forall (property : ι → Fact → Prop) (distinct : system.graph.program.Nodup)
    {store : Store ι} {block : β} (listed : block ∈ system.graph.blocks)
    (stored : ∀ inst fact, store.get? inst = some fact → property inst fact)
    (first : ∀ inst rest, system.order block = inst :: rest →
      property inst (system.transfer inst (system.inflow store block).fact))
    (next : ∀ before previous inst after fact,
      system.order block = before ++ previous :: inst :: after →
      property previous fact → property inst (system.transfer inst fact)) :
    ∀ inst fact, (system.settle store block).get? inst = some fact → property inst fact := by
  intro inst fact found
  by_cases member : inst ∈ system.order block
  · obtain ⟨output, given⟩ := exists_output store member
    rw [get?_settle_of_output distinct listed given] at found
    cases found
    exact system.thread_forall property first next _ given
  · rw [get?_settle_of_not_mem member] at found
    exact stored inst fact found

end System

end Dataflow
