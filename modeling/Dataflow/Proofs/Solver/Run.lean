import Dataflow.Proofs.System.Basic
import Dataflow.Solver.Basic

/-! Runs as rounds of a system. Where a client's operators answer as functions of facts, on
all stores that a run can come to, the solver does to its store exactly what a round of the
equations does, and it reports a change exactly when the store was no solution. What else the
client remembers does not show. -/
namespace Dataflow

section Steps

variable {σ β ι α : Type}

theorem Call.outcome_traced {call : Call σ α} {memory : σ} {value : α}
    (answers : (call.run memory).1 = .ok value) :
    (call.traced memory : Traced β ι (α × σ)).outcome = .ok (value, (call.run memory).2) := by
  unfold Call.traced
  simp only [Traced.ofExcept, answers]
  rfl

theorem Call.outcome_traced_eq_ok {call : Call σ α} {memory after : σ} {value : α} :
    (call.traced memory : Traced β ι (α × σ)).outcome = .ok (value, after) ↔
      (call.run memory).1 = .ok value ∧ (call.run memory).2 = after := by
  unfold Call.traced
  simp only [Traced.ofExcept]
  cases (call.run memory).1 <;> simp [Except.map]

theorem Store.update_eq [DecidableEq ι] {store : Store ι} {inst : ι} {old fact : Fact}
    (found : store.get? inst = some old) (width : old.width = fact.width) :
    store.update inst fact = .ok (decide (store.get? inst ≠ some fact), store.set inst fact) := by
  unfold Store.update
  simp only [found, ne_eq, width, not_true_eq_false, if_false, Option.some.injEq]
  by_cases same : old = fact
  · subst same
    simp [Assignment.set_eq_self found]
  · simp [same]

end Steps

variable {σ β ι ν ε : Type} [DecidableEq β] [DecidableEq ι]

/-- The equations of a run over a domain, with functions that stand for the client's operators. -/
def Problem.system (problem : Problem σ β ι ν ε) (domain : Domain ε) (boundary : Fact)
    (ops : Operators β ι) : System β ι ν :=
  { ops with
    direction := problem.client.direction
    graph := problem.graph
    width := domain.size
    boundary }

namespace Problem

omit [DecidableEq β] [DecidableEq ι]

variable (problem : Problem σ β ι ν ε) (domain : Domain ε) (boundary : Fact) (ops : Operators β ι)

@[simp] theorem system_graph : (problem.system domain boundary ops).graph = problem.graph := rfl

@[simp] theorem system_direction :
    (problem.system domain boundary ops).direction = problem.client.direction := rfl

@[simp] theorem system_width : (problem.system domain boundary ops).width = domain.size := rfl

end Problem

/-- On valid stores the client answers as the functions do, whatever it remembers, and a valid
store stays valid when a block is worked through. Transfers happen in the middle of a block,
where only the shape of the store is known. -/
structure Problem.Follows (problem : Problem σ β ι ν ε) (domain : Domain ε) (boundary : Fact)
    (ops : Operators β ι) (valid : Store ι → Prop) : Prop where
  sized : (problem.system domain boundary ops).Sized
  covers : ∀ store, valid store → (problem.system domain boundary ops).Covers store
  settle : ∀ store block, valid store → block ∈ problem.graph.blocks →
    valid ((problem.system domain boundary ops).settle store block)
  meet : ∀ store block memory, valid store → block ∈ problem.graph.blocks →
    problem.client.direction.usesBoundary problem.graph block = false →
    problem.arriving store block ≠ [] →
    ((problem.client.meet ⟨problem.graph, domain, store⟩ block
      (problem.arriving store block)).run memory).1 =
        .ok (ops.meet block (problem.arriving store block))
  transfer : ∀ store inst input memory, (problem.system domain boundary ops).Covers store →
    inst ∈ problem.graph.program → input.width = domain.size →
    ((problem.client.transfer ⟨problem.graph, domain, store⟩ inst input).run memory).1 =
      .ok (ops.transfer inst input)

structure Pass.Recorded (before after : Pass σ β ι) (outputs : List (ι × Fact)) : Prop where
  store : after.store = before.store.record outputs
  changes : before.changes ≤ after.changes
  steady : after.changes = before.changes ↔
    ∀ output ∈ outputs, before.store.get? output.1 = some output.2

namespace Pass.Recorded

omit [DecidableEq β] in
theorem nil (pass : Pass σ β ι) : Recorded pass pass [] := ⟨rfl, Nat.le_refl _, by simp⟩

omit [DecidableEq β] in
theorem append {before middle after : Pass σ β ι} {first second : List (ι × Fact)}
    (head : Recorded before middle first) (tail : Recorded middle after second) :
    Recorded before after (first ++ second) := by
  refine ⟨?_, Nat.le_trans head.changes tail.changes, ?_⟩
  · rw [tail.store, head.store, Store.record, Store.record, Store.record, List.foldl_append]
  · have split : after.changes = before.changes ↔
        middle.changes = before.changes ∧ after.changes = middle.changes := by
      have := head.changes
      have := tail.changes
      omega
    rw [split, head.steady, tail.steady, List.forall_mem_append]
    refine and_congr_right fun stored => ?_
    rw [head.store, Store.record_eq_self stored]

end Pass.Recorded

structure Session.SameRun (first second : Session σ β ι ε) : Prop where
  domain : second.domain = first.domain
  boundary : second.boundary = first.boundary
  domainSize : second.stats.domainSize = first.stats.domainSize
  instructions : second.stats.instructions = first.stats.instructions

omit [DecidableEq β] [DecidableEq ι] in
theorem Session.SameRun.trans {first second third : Session σ β ι ε}
    (early : first.SameRun second) (late : second.SameRun third) : first.SameRun third :=
  ⟨late.domain.trans early.domain, late.boundary.trans early.boundary,
    late.domainSize.trans early.domainSize, late.instructions.trans early.instructions⟩

namespace Problem.Follows

variable {problem : Problem σ β ι ν ε} {session : Session σ β ι ε} {ops : Operators β ι}
  {valid : Store ι → Prop}
  (follows : problem.Follows session.domain session.boundary ops valid)

include follows

theorem outcome_enter {pass : Pass σ β ι} (good : valid pass.store) {block : β}
    (listed : block ∈ problem.graph.blocks) :
    ∃ memory meets, (problem.enter session pass block).outcome =
      .ok ((problem.system session.domain session.boundary ops).inflow pass.store block,
        { pass with memory, meets }) := by
  unfold Problem.enter
  dsimp only
  by_cases outer : problem.client.direction.usesBoundary problem.graph block ||
      (problem.arriving pass.store block).isEmpty
  · have entry : (problem.system session.domain session.boundary ops).inflow pass.store block =
        .boundary session.boundary := if_pos outer
    rw [if_pos outer, entry]
    exact ⟨pass.memory, pass.meets, rfl⟩
  · have entry : (problem.system session.domain session.boundary ops).inflow pass.store block =
        .meet (ops.meet block (problem.arriving pass.store block)) := if_neg outer
    obtain ⟨inner, nonempty⟩ : problem.client.direction.usesBoundary problem.graph block = false ∧
        problem.arriving pass.store block ≠ [] := by
      simpa using outer
    have answers := follows.meet pass.store block pass.memory good listed inner nonempty
    rw [if_neg outer, entry, Traced.outcome_bind, Call.outcome_traced answers]
    exact ⟨_, pass.meets + 1, rfl⟩

theorem outcome_advance {pass : Pass σ β ι} (block : β) {input : Fact} {inst : ι}
    (covers : (problem.system session.domain session.boundary ops).Covers pass.store)
    (listed : inst ∈ problem.graph.program) (width : input.width = session.domain.size) :
    ∃ next, (problem.advance session block (input, pass) inst).outcome =
      .ok (ops.transfer inst input, next) ∧
        pass.Recorded next [(inst, ops.transfer inst input)] := by
  obtain ⟨old, found, sized⟩ := covers.exists_fact listed
  have kept : old.width = (ops.transfer inst input).width :=
    sized.trans (follows.sized.transfer inst input width).symm
  have answers := follows.transfer pass.store inst input pass.memory covers listed width
  simp only [Problem.advance, Traced.outcome_bind, Call.outcome_traced answers, Except.bind,
    Traced.ofExcept, Store.update_eq found kept]
  by_cases stored : pass.store.get? inst = some (ops.transfer inst input)
  · simp only [stored, ne_eq, not_true_eq_false, decide_false, Bool.false_eq_true, if_false]
    exact ⟨_, rfl, rfl, Nat.le_refl _, by simp [stored]⟩
  · simp only [stored, ne_eq, not_false_eq_true, decide_true, if_true]
    exact ⟨_, rfl, rfl, Nat.le_succ _, by simp [stored]⟩

theorem outcome_advances (pass : Pass σ β ι) (block : β) {input : Fact} {insts : List ι}
    (covers : (problem.system session.domain session.boundary ops).Covers pass.store)
    (listed : ∀ inst ∈ insts, inst ∈ problem.graph.program)
    (width : input.width = session.domain.size) :
    ∃ last next, (insts.foldlM (problem.advance session block) (input, pass)).outcome =
      .ok (last, next) ∧ pass.Recorded next (ops.thread input insts) := by
  induction insts generalizing pass input with
  | nil => exact ⟨input, pass, rfl, .nil pass⟩
  | cons inst rest ih =>
    have here := listed inst (by simp)
    have kept : (ops.transfer inst input).width = session.domain.size :=
      follows.sized.transfer inst input width
    obtain ⟨middle, first, recorded⟩ := follows.outcome_advance block covers here width
    have coversMiddle : (problem.system session.domain session.boundary ops).Covers middle.store := by
      rw [recorded.store]
      exact covers.record (by simpa using here) (by simpa using kept)
    obtain ⟨last, next, others, later⟩ := ih middle coversMiddle
      (fun other member => listed other (by simp [member])) kept
    refine ⟨last, next, ?_, recorded.append later⟩
    rw [List.foldlM_cons, Traced.outcome_bind, first]
    exact others

/-- A visit leaves in the store what working through the block leaves there. -/
theorem outcome_visit {pass : Pass σ β ι} (good : valid pass.store) {block : β}
    (listed : block ∈ problem.graph.blocks) :
    ∃ next, (problem.visit session pass
        (block, problem.client.direction.instructionOrder problem.graph block)).outcome = .ok next ∧
      pass.Recorded next
        ((problem.system session.domain session.boundary ops).outputs pass.store block) := by
  have covers := follows.covers pass.store good
  have width := System.inflow_sized follows.sized covers block
  obtain ⟨memory, meets, entered⟩ := follows.outcome_enter good listed
  obtain ⟨last, next, passed, recorded⟩ := follows.outcome_advances
    { pass with memory, meets } block covers
    (fun _ => (problem.system session.domain session.boundary ops).mem_program_of_order listed) width
  let entry := (problem.system session.domain session.boundary ops).inflow pass.store block
  refine ⟨{ next with entries := next.entries.set block entry }, ?_, recorded.store,
    recorded.changes, recorded.steady⟩
  simp only [Problem.visit, Traced.outcome_bind, entered, Except.bind, Traced.outcome_check]
  rw [if_pos (by simpa using width)]
  simp only [System.order, Problem.system_direction, Problem.system_graph] at passed
  rw [passed]
  rfl

theorem outcome_visits (pass : Pass σ β ι) (good : valid pass.store) {blocks : List β}
    (listed : ∀ block ∈ blocks, block ∈ problem.graph.blocks) :
    ∃ next, ((blocks.map fun block =>
        (block, problem.client.direction.instructionOrder problem.graph block)).foldlM
          (problem.visit session) pass).outcome = .ok next ∧
      next.store = blocks.foldl (problem.system session.domain session.boundary ops).settle pass.store ∧
      valid next.store ∧ pass.changes ≤ next.changes ∧
      (next.changes = pass.changes ↔ ∀ block ∈ blocks,
        ∀ output ∈ (problem.system session.domain session.boundary ops).outputs pass.store block,
          pass.store.get? output.1 = some output.2) := by
  induction blocks generalizing pass with
  | nil => exact ⟨pass, rfl, rfl, good, Nat.le_refl _, by simp⟩
  | cons block rest ih =>
    have here := listed block (by simp)
    obtain ⟨middle, first, recorded⟩ := follows.outcome_visit good here
    have goodMiddle : valid middle.store := by
      rw [recorded.store]
      exact follows.settle pass.store block good here
    obtain ⟨next, others, store, goodNext, changes, steady⟩ := ih middle goodMiddle
      (fun other member => listed other (by simp [member]))
    refine ⟨next, ?_, ?_, goodNext, Nat.le_trans recorded.changes changes, ?_⟩
    · rw [List.map_cons, List.foldlM_cons, Traced.outcome_bind, first]
      exact others
    · rw [store, recorded.store]
      rfl
    · have split : next.changes = pass.changes ↔
          middle.changes = pass.changes ∧ next.changes = middle.changes := by
        have := recorded.changes
        omega
      rw [split, recorded.steady, steady, List.forall_mem_cons]
      refine and_congr_right fun stored => ?_
      rw [recorded.store, Store.record_eq_self stored]

theorem outcome_traverse (good : valid session.store) :
    ∃ pass, (problem.traverse session).outcome = .ok pass ∧
      pass.store = (problem.system session.domain session.boundary ops).round session.store ∧
      valid pass.store ∧
      (pass.changes = 0 ↔
        (problem.system session.domain session.boundary ops).Solves session.store) := by
  obtain ⟨pass, swept, store, goodNext, _, steady⟩ := follows.outcome_visits
    ⟨session.store, session.entries, session.memory, 0, 0, 0⟩ good
    (fun _ => (problem.system session.domain session.boundary ops).mem_blockOrder.mp)
  refine ⟨pass, swept, store, goodNext, steady.trans ?_⟩
  constructor
  · intro stored block listed
    exact stored block ((System.mem_blockOrder _).mpr listed)
  · intro solves block member
    exact solves block ((System.mem_blockOrder _).mp member)

/-- A counted sweep is a round, and it converges exactly on a solution. -/
theorem outcome_sweep (good : valid session.store) (running : session.stage ≠ .converged) :
    ∃ changed next, (problem.sweep session).outcome = .ok (changed, next) ∧
      session.SameRun next ∧ valid next.store ∧
      next.store = (problem.system session.domain session.boundary ops).round session.store ∧
      next.stats.sweeps = session.stats.sweeps + 1 ∧
      (next.stage = .converged ↔
        (problem.system session.domain session.boundary ops).Solves session.store) := by
  obtain ⟨pass, traversed, store, goodNext, steady⟩ := follows.outcome_traverse good
  simp only [Problem.sweep, Traced.outcome_bind, traversed, Except.bind, running, if_false]
  refine ⟨_, _, rfl, ⟨rfl, rfl, rfl, rfl⟩, goodNext, store, rfl, ?_⟩
  rw [← steady]
  by_cases none : pass.changes = 0
  · simp [none]
  · simp [none, Nat.pos_of_ne_zero none]

/-- A verifying sweep of a solution finds nothing to change. -/
theorem outcome_verify (good : valid session.store) (converged : session.stage = .converged)
    (solves : (problem.system session.domain session.boundary ops).Solves session.store) :
    ∃ next, (problem.sweep session).outcome = .ok (false, next) ∧ session.SameRun next ∧
      next.store = session.store ∧ next.stats = session.stats := by
  obtain ⟨pass, traversed, store, _, steady⟩ := follows.outcome_traverse good
  have none : pass.changes = 0 := steady.mpr solves
  rw [solves.round] at store
  simp only [Problem.sweep, Traced.outcome_bind, traversed, Except.bind, converged, if_true, none]
  exact ⟨session.after pass, rfl, ⟨rfl, rfl, rfl, rfl⟩, store, rfl⟩

end Problem.Follows

end Dataflow
