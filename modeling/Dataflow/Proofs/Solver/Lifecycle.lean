import Dataflow.Proofs.Solver.Equations
import Dataflow.Script

/-! The life of a solver that is driven by hand, whatever its client does. A start that is refused
changes nothing; one that succeeds fixes the domain, the boundary and the instructions with facts.
From then on every sweep up to convergence passes each instruction once and meets in the same
blocks, so the counts can be read off the number of sweeps. -/
namespace Dataflow

variable {σ β ι ν ε : Type} [DecidableEq β] [DecidableEq ι]

def Store.seeded (store : Store ι) (inst : ι) : Bool := (store.get? inst).isSome

theorem Store.SameShape.seeded {first second : Store ι} (shape : first.SameShape second) :
    second.seeded = first.seeded := by
  funext inst
  have same := congrArg Option.isSome (shape inst)
  rwa [Option.isSome_map, Option.isSome_map] at same

structure Pass.Spends (before after : Pass σ β ι) (met passed : Nat) : Prop where
  meets : after.meets = before.meets + met
  transfers : after.transfers = before.transfers + passed
  changes : after.changes ≤ before.changes + passed

omit [DecidableEq β] [DecidableEq ι] in
theorem Pass.Spends.trans {before middle after : Pass σ β ι} {met passed metLater passedLater : Nat}
    (early : before.Spends middle met passed) (late : middle.Spends after metLater passedLater) :
    before.Spends after (met + metLater) (passed + passedLater) := by
  obtain ⟨meetsEarly, transfersEarly, changesEarly⟩ := early
  obtain ⟨meetsLate, transfersLate, changesLate⟩ := late
  constructor <;> omega

namespace Problem

def meetsAt (problem : Problem σ β ι ν ε) (seeded : ι → Bool) (block : β) : Bool :=
  !problem.client.direction.usesBoundary problem.graph block &&
    (problem.client.direction.neighbors problem.graph block).any fun neighbor =>
      (problem.client.direction.exit? problem.graph neighbor).any seeded

def meetings (problem : Problem σ β ι ν ε) (seeded : ι → Bool) : Nat :=
  problem.graph.blocks.countP (problem.meetsAt seeded)

variable {problem : Problem σ β ι ν ε} {session next : Session σ β ι ε}

theorem meetsAt_eq_true {store : Store ι} {block : β} :
    problem.meetsAt store.seeded block = true ↔
      problem.client.direction.usesBoundary problem.graph block = false ∧
        problem.arriving store block ≠ [] := by
  unfold meetsAt
  rw [Bool.and_eq_true, Bool.not_eq_true', List.any_eq_true, ← List.isEmpty_eq_false_iff,
    List.isEmpty_eq_false_iff_exists_mem]
  refine and_congr_right fun _ => ?_
  simp only [arriving, List.mem_filterMap, Option.bind_eq_some_iff, Option.map_eq_some_iff,
    Option.any_eq_true, Store.seeded, Option.isSome_iff_exists]
  constructor
  · rintro ⟨neighbor, member, inst, left, fact, found⟩
    exact ⟨⟨neighbor, fact⟩, neighbor, member, inst, left, fact, found, rfl⟩
  · rintro ⟨_, neighbor, member, inst, left, fact, found, _⟩
    exact ⟨neighbor, member, inst, left, fact, found⟩

omit [DecidableEq β] in
theorem spends_of_advance {block : β} {input output : Fact} {pass after : Pass σ β ι} {inst : ι}
    (advanced : (problem.advance session block (input, pass) inst).outcome = .ok (output, after)) :
    pass.Spends after 0 1 := by
  obtain ⟨old, _, _, _, same⟩ := advance_eq_ok advanced
  rw [same]
  refine ⟨rfl, rfl, ?_⟩
  dsimp only
  split <;> omega

omit [DecidableEq β] in
theorem spends_of_advances {block : β} {insts : List ι} {input output : Fact}
    {pass after : Pass σ β ι}
    (advanced : (insts.foldlM (problem.advance session block) (input, pass)).outcome =
      .ok (output, after)) : pass.Spends after 0 insts.length := by
  induction insts generalizing input pass with
  | nil =>
    cases advanced
    exact ⟨rfl, rfl, Nat.le_refl _⟩
  | cons inst rest ih =>
    rw [List.foldlM_cons] at advanced
    obtain ⟨⟨middle, between⟩, first, others⟩ := Traced.outcome_bind_eq_ok.mp advanced
    rw [List.length_cons, Nat.add_comm]
    exact (spends_of_advance first).trans (ih others)

theorem spends_of_enter {block : β} {pass after : Pass σ β ι} {entry : EntryFact}
    (entered : (problem.enter session pass block).outcome = .ok (entry, after)) :
    pass.Spends after (if problem.meetsAt pass.store.seeded block then 1 else 0) 0 := by
  rcases enter_eq_ok entered with ⟨_, rfl, outer⟩ | ⟨_, _, inner, nonempty, _, same⟩
  · have none : problem.meetsAt after.store.seeded block = false := by
      rw [← Bool.not_eq_true, meetsAt_eq_true]
      rintro ⟨inner, nonempty⟩
      rcases outer with boundary | nothing
      · exact absurd (boundary.symm.trans inner) (by decide)
      · exact nonempty nothing
    rw [none]
    exact ⟨rfl, rfl, Nat.le_refl _⟩
  · rw [meetsAt_eq_true.mpr ⟨inner, nonempty⟩, same]
    exact ⟨rfl, rfl, Nat.le_refl _⟩

theorem spends_of_visit {item : β × List ι} {pass after : Pass σ β ι}
    (visited : (problem.visit session pass item).outcome = .ok after) :
    pass.Spends after (if problem.meetsAt pass.store.seeded item.1 then 1 else 0)
      item.2.length := by
  obtain ⟨entry, entered, last, passed, enters, _, passes, rfl⟩ := visit_eq_ok visited
  have whole := (spends_of_enter enters).trans (spends_of_advances passes)
  rw [Nat.add_zero, Nat.zero_add] at whole
  exact ⟨whole.meets, whole.transfers, whole.changes⟩

/-- Visits give no instruction its first fact, so it does not matter when a block is asked whether
it is entered with a meet. -/
theorem spends_of_visits {items : List (β × List ι)} {pass after : Pass σ β ι}
    (visited : (items.foldlM (problem.visit session) pass).outcome = .ok after) :
    pass.Spends after (items.countP fun item => problem.meetsAt pass.store.seeded item.1)
      (items.flatMap Prod.snd).length := by
  induction items generalizing pass with
  | nil =>
    cases visited
    exact ⟨rfl, rfl, Nat.le_refl _⟩
  | cons item rest ih =>
    rw [List.foldlM_cons] at visited
    obtain ⟨middle, first, others⟩ := Traced.outcome_bind_eq_ok.mp visited
    have later := ih others
    rw [(kept_of_visit first).shape.seeded] at later
    rw [List.countP_cons, List.flatMap_cons, List.length_append, Nat.add_comm (List.countP _ _)]
    exact (spends_of_visit first).trans later

omit [DecidableEq ι] in
theorem countP_plan (problem : Problem σ β ι ν ε) (seeded : ι → Bool) :
    (problem.plan.countP fun item => problem.meetsAt seeded item.1) = problem.meetings seeded := by
  unfold plan meetings Direction.blockOrder
  rw [List.countP_map]
  cases problem.client.direction with
  | forward => rfl
  | backward => exact List.countP_reverse

/-- A sweep meets once in every block that is entered so, and passes every instruction once. -/
theorem spends_of_sweep {pass : Pass σ β ι}
    (visited : (problem.plan.foldlM (problem.visit session) session.opening).outcome = .ok pass) :
    session.opening.Spends pass (problem.meetings session.store.seeded)
      problem.graph.program.length := by
  have spent := spends_of_visits visited
  rwa [countP_plan, problem.plan_perm.length_eq] at spent

structure Accounts (problem : Problem σ β ι ν ε) (session : Session σ β ι ε) : Prop where
  domainSize : session.stats.domainSize = session.domain.size
  instructions : session.stats.instructions = problem.graph.program.length
  transfers : session.stats.transfers = session.stats.sweeps * session.stats.instructions
  meets : session.stats.meets = session.stats.sweeps * problem.meetings session.store.seeded
  changes : session.stats.changedInstructions ≤ session.stats.transfers
  fresh : session.stage = .initialized ↔ session.stats.sweeps = 0
  iterating : session.stage = .iterating →
    session.stats.sweeps ≤ session.stats.changedInstructions
  converged : session.stage = .converged →
    session.stats.sweeps ≤ session.stats.changedInstructions + 1

/-- A sweep that counts finds the counts in order and leaves them so. -/
theorem Accounts.counted (accounts : problem.Accounts session) (running : session.stage ≠ .converged)
    {pass : Pass σ β ι}
    (visited : (problem.plan.foldlM (problem.visit session) session.opening).outcome = .ok pass) :
    problem.Accounts (session.counted pass) := by
  obtain ⟨met, passed, changed⟩ := spends_of_sweep visited
  have seeded : (session.counted pass).store.seeded = session.store.seeded :=
    (kept_of_visits visited).shape.seeded
  simp only [Session.opening, Nat.zero_add] at met passed changed
  -- so far every sweep has changed a fact
  have before : session.stats.sweeps ≤ session.stats.changedInstructions := by
    cases stage : session.stage with
    | initialized => exact (accounts.fresh.mp stage).trans_le (Nat.zero_le _)
    | iterating => exact accounts.iterating stage
    | converged => exact absurd stage running
  refine ⟨accounts.domainSize, accounts.instructions, ?_, ?_, ?_, ?_, ?_, ?_⟩
  · change session.stats.transfers + pass.transfers =
      (session.stats.sweeps + 1) * session.stats.instructions
    rw [accounts.transfers, passed, accounts.instructions, Nat.succ_mul]
  · change session.stats.meets + pass.meets = (session.stats.sweeps + 1) * _
    rw [seeded, accounts.meets, met, Nat.succ_mul]
  · change session.stats.changedInstructions + pass.changes ≤
      session.stats.transfers + pass.transfers
    have := accounts.changes
    omega
  · change (if 0 < pass.changes then Stage.iterating else .converged) = .initialized ↔
      session.stats.sweeps + 1 = 0
    split <;> simp
  · change (if 0 < pass.changes then Stage.iterating else .converged) = .iterating →
      session.stats.sweeps + 1 ≤ session.stats.changedInstructions + pass.changes
    split
    · intro _
      omega
    · intro impossible
      cases impossible
  · change _ → session.stats.sweeps + 1 ≤ session.stats.changedInstructions + pass.changes + 1
    intro _
    omega

theorem SweepsTo.accounts (swept : problem.SweepsTo session next)
    (accounts : problem.Accounts session) : problem.Accounts next := by
  obtain ⟨_, swept⟩ := swept
  obtain ⟨pass, visited, ⟨converged, _, _, rfl⟩ | ⟨running, _, rfl⟩⟩ := sweep_eq_ok swept
  · have seeded : (session.after pass).store.seeded = session.store.seeded :=
      (kept_of_visits visited).shape.seeded
    refine { accounts with meets := ?_ }
    rw [seeded]
    exact accounts.meets
  · exact accounts.counted running visited

theorem Starts.accounts [DecidableEq ε] (started : problem.Starts session) :
    problem.Accounts session := by
  obtain ⟨_, _, stats, stage, _⟩ := begin_eq_ok (starts_iff.mp started).2
  constructor <;> simp [stats, stage]

theorem Sweeps.accounts (sweeps : problem.Sweeps session next)
    (accounts : problem.Accounts session) : problem.Accounts next := by
  induction sweeps with
  | refl => exact accounts
  | tail _ step ih => exact step.accounts ih

end Problem

variable [DecidableEq ε]

namespace Solver

def boundary? (solver : Solver σ β ι ν ε) : Option Fact := solver.session?.map Session.boundary

/-- The number of blocks that do not start from the boundary and have a neighbour that is left
through an instruction with a fact. -/
def meetings (solver : Solver σ β ι ν ε) : Nat :=
  solver.problem.meetings fun inst => (solver.factOf? inst).isSome

inductive Calls : Solver σ β ι ν ε → Solver σ β ι ν ε → Prop where
  | start {solver next : Solver σ β ι ν ε} {answer : Except (SolveError β ι) Unit}
      (ended : solver.start.outcome = .ok (answer, next)) : Calls solver next
  | sweep {solver next : Solver σ β ι ν ε} {changed : Bool}
      (ended : solver.sweep.outcome = .ok (changed, next)) : Calls solver next

/-- What holds of a solver between any two calls. -/
structure InOrder (problem : Problem σ β ι ν ε) (solver : Solver σ β ι ν ε) : Prop where
  owner : solver.problem = problem
  /-- Exactly a solver that has not been started has no domain. -/
  domain : solver.domain? = none ↔ solver.stage? = none
  /-- A start that is refused leaves the solver as it was. -/
  refused : ∀ error next, solver.start.outcome = .ok (.error error, next) → next = solver
  /-- Once there is a domain, exactly the listed instructions have facts, as wide as the domain. -/
  facts : ∀ inst, (solver.factOf? inst).map Fact.width =
    if inst ∈ problem.graph.program then solver.domain?.map Domain.size else none
  sizes : ∀ domain, solver.domain? = some domain →
    solver.stats.domainSize = domain.size ∧
      solver.stats.instructions = problem.graph.instructionCount
  fresh : solver.stage? = some .initialized ↔ solver.domain?.isSome ∧ solver.stats.sweeps = 0
  transfers : solver.stats.transfers = solver.stats.sweeps * solver.stats.instructions
  meets : solver.stats.meets = solver.stats.sweeps * solver.meetings
  changes : solver.stats.changedInstructions ≤ solver.stats.transfers
  iterating : solver.stage? = some .iterating →
    solver.stats.sweeps ≤ solver.stats.changedInstructions
  converged : solver.stage? = some .converged →
    solver.stats.sweeps - 1 ≤ solver.stats.changedInstructions

structure Keeps (solver later : Solver σ β ι ν ε) : Prop where
  domain : later.domain? = solver.domain?
  boundary : later.boundary? = solver.boundary?
  facts : ∀ inst, (later.factOf? inst).map Fact.width = (solver.factOf? inst).map Fact.width
  meetings : later.meetings = solver.meetings
  converged : solver.stage? = some .converged → later.stage? = some .converged

variable {problem : Problem σ β ι ν ε} {solver later : Solver σ β ι ν ε} {session : Session σ β ι ε}

theorem eq_of_refused {error : SolveError β ι}
    (refused : solver.start.outcome = .ok (.error error, later)) : later = solver := by
  obtain ⟨owner, session?⟩ := solver
  cases session? with
  | some session => cases refused
  | none =>
    obtain ⟨answer, _, ended⟩ := Traced.outcome_bind_eq_ok.mp refused
    cases answer <;> cases ended
    rfl

theorem inOrder_of_fresh (problem : Problem σ β ι ν ε) : (ofProblem problem).InOrder problem where
  owner := rfl
  domain := ⟨fun _ => rfl, fun _ => rfl⟩
  refused := fun _ _ => eq_of_refused
  facts := fun inst => by simp [ofProblem, factOf?, domain?]
  sizes := fun domain impossible => by cases impossible
  fresh := by simp [ofProblem, stage?, domain?]
  transfers := rfl
  meets := (Nat.zero_mul _).symm
  changes := Nat.le_refl _
  iterating := fun impossible => by cases impossible
  converged := fun impossible => by cases impossible

theorem inOrder_of_accounts {first : Session σ β ι ε} (started : problem.Starts first)
    (sweeps : problem.Sweeps first session) : InOrder problem ⟨problem, some session⟩ := by
  have accounts := sweeps.accounts started.accounts
  refine
    { owner := rfl
      domain := by simp [domain?, stage?]
      refused := fun _ _ => eq_of_refused
      facts := fun inst => ?_
      sizes := fun domain here => ?_
      fresh := by simpa [stage?, domain?, stats] using accounts.fresh
      transfers := accounts.transfers
      meets := accounts.meets
      changes := accounts.changes
      iterating := fun stage => accounts.iterating (Option.some.inj stage)
      converged := fun stage => Nat.sub_le_of_le_add (accounts.converged (Option.some.inj stage)) }
  · have domain : session.domain = first.domain := sweeps.sameRun.domain
    rw [show factOf? ⟨problem, some session⟩ inst = session.store.get? inst from rfl,
      started.widths sweeps inst, ← domain]
    rfl
  · cases here
    rw [FlowGraph.instructionCount_eq]
    exact ⟨accounts.domainSize, accounts.instructions⟩

theorem Driven.inOrder (driven : Driven problem solver) : solver.InOrder problem := by
  obtain ⟨owner, sessions⟩ := driven.reached
  obtain ⟨_, session?⟩ := solver
  cases owner
  cases session? with
  | none => exact inOrder_of_fresh _
  | some session =>
    obtain ⟨first, started, sweeps⟩ := sessions session rfl
    exact inOrder_of_accounts started sweeps

/-- A run under way cannot be started again, so every further call is a sweep. -/
theorem sweeps_of_calls (calls : Relation.ReflTransGen Calls ⟨problem, some session⟩ later) :
    ∃ after, later = ⟨problem, some after⟩ ∧ problem.Sweeps session after := by
  induction calls with
  | refl => exact ⟨session, rfl, .refl⟩
  | tail _ call ih =>
    obtain ⟨after, rfl, sweeps⟩ := ih
    cases call with
    | start ended => cases ended
    | sweep ended =>
      obtain ⟨⟨_, next⟩, swept, same⟩ := Traced.outcome_bind_eq_ok.mp ended
      cases same
      exact ⟨next, rfl, sweeps.tail ⟨_, swept⟩⟩

omit [DecidableEq ε] in
theorem keeps_of_sweeps {after : Session σ β ι ε} (sweeps : problem.Sweeps session after) :
    Keeps ⟨problem, some session⟩ ⟨problem, some after⟩ where
  domain := congrArg some sweeps.sameRun.domain
  boundary := congrArg some sweeps.sameRun.boundary
  facts := sweeps.sameShape
  meetings := congrArg problem.meetings sweeps.sameShape.seeded
  converged := fun stage => congrArg some (sweeps.converged (Option.some.inj stage))

end Solver

/-- However a solver is started and swept, and whatever its client answers: between any two calls
its tables and counts are in order, and what the start has fixed stays. -/
theorem solver_lifecycle {problem : Problem σ β ι ν ε} {solver later : Solver σ β ι ν ε}
    (driven : Solver.Driven problem solver)
    (calls : Relation.ReflTransGen Solver.Calls solver later) :
    solver.InOrder problem ∧ (solver.domain?.isSome → solver.Keeps later) := by
  refine ⟨driven.inOrder, fun started => ?_⟩
  obtain ⟨owner, session?⟩ := solver
  obtain ⟨session, rfl⟩ : ∃ session, session? = some session := by
    simpa [Solver.domain?, Option.isSome_iff_exists] using started
  obtain ⟨after, rfl, sweeps⟩ := Solver.sweeps_of_calls calls
  exact Solver.keeps_of_sweeps sweeps

/-- Turns its stored facts round, until it has been asked often enough to fill them all: neither
monotone nor a function of its arguments. -/
def Script.erratic : Script where
  direction := .forward
  collect := [.definitions]
  initial := .empty
  boundary := .empty
  meet := .union
  transfer := [.flipFirst, .fillAfter 4]

theorem solver_lifecycle_of_erratic : ∃ solver later,
    Solver.Driven ⟨Script.erratic.client, 0, Table.loops.graph, .standard⟩ solver ∧
    Relation.ReflTransGen Solver.Calls solver later ∧ solver.domain?.isSome = true ∧
    solver.stage? = some .iterating ∧ later.stage? = some .converged ∧
    solver.InOrder ⟨Script.erratic.client, 0, Table.loops.graph, .standard⟩ ∧
    solver.Keeps later := by
  have run : (do
      let (_, begun) ← (Solver.ofProblem ⟨Script.erratic.client, 0, Table.loops.graph,
        .standard⟩).start
      let (_, first) ← begun.sweep
      let (_, second) ← first.sweep
      let (_, third) ← second.sweep
      return (first.domain?.isSome, first.stage?, third.stage?)).outcome =
        .ok (true, some .iterating, some .converged) := by decide +kernel
  obtain ⟨⟨_, begun⟩, starts, run⟩ := Traced.outcome_bind_eq_ok.mp run
  obtain ⟨⟨_, first⟩, sweepsFirst, run⟩ := Traced.outcome_bind_eq_ok.mp run
  obtain ⟨⟨_, second⟩, sweepsSecond, run⟩ := Traced.outcome_bind_eq_ok.mp run
  obtain ⟨⟨_, third⟩, sweepsThird, run⟩ := Traced.outcome_bind_eq_ok.mp run
  obtain ⟨known, iterating, converged⟩ : first.domain?.isSome = true ∧
      first.stage? = some .iterating ∧ third.stage? = some .converged := by
    simpa [pure, Except.ok.injEq] using run
  have driven := Solver.Driven.swept (.started .fresh starts) sweepsFirst
  have calls : Relation.ReflTransGen Solver.Calls first third :=
    .tail (.single (.sweep sweepsSecond)) (.sweep sweepsThird)
  obtain ⟨inOrder, keeps⟩ := solver_lifecycle driven calls
  exact ⟨first, third, driven, calls, known, iterating, converged, inOrder, keeps known⟩

end Dataflow
