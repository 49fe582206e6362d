import Dataflow.Proofs.Duality.Recipe
import Dataflow.Proofs.Solver.Stepwise

/-! Runs that mirror each other. Two problems that walk the same way over the same blocks, and whose
clients obey one recipe, number their elements differently and are otherwise in step: at every
instruction and at every block they hold facts with the same elements, they see the same changes,
and they count the same. -/
namespace Dataflow

theorem Traced.outcome_foldlM {β ι α δ : Type} (step : α → δ → Traced β ι α) (items : List δ)
    (start : α) :
    (items.foldlM step start).outcome =
      items.foldlM (fun value item => (step value item).outcome) start := by
  induction items generalizing start with
  | nil => rfl
  | cons item rest ih =>
    rw [List.foldlM_cons, List.foldlM_cons, Traced.outcome_bind]
    cases (step start item).outcome with
    | error fault => rfl
    | ok next => exact ih next

/-- What the one side has, the other side has as well. -/
theorem exists_of_rel {α γ : Type} {related : α → γ → Prop} {left : α} {right? : Option γ}
    (here : Option.Rel related (some left) right?) :
    ∃ right, right? = some right ∧ related left right := by
  cases here with
  | some there => exact ⟨_, rfl, there⟩

variable {σ τ β ι ν ε : Type} [DecidableEq β] [DecidableEq ι] [DecidableEq ε]

inductive EntryFact.Matches (first second : Domain ε) : EntryFact → EntryFact → Prop where
  | boundary {left right : Fact} (here : first.Matches second left right) :
      EntryFact.Matches first second (.boundary left) (.boundary right)
  | meet {left right : Fact} (here : first.Matches second left right) :
      EntryFact.Matches first second (.meet left) (.meet right)

theorem EntryFact.Matches.fact {first second : Domain ε} {left right : EntryFact}
    (here : EntryFact.Matches first second left right) :
    first.Matches second left.fact right.fact := by
  cases here <;> assumption

structure Pass.Mirrors (program : List ι) (first second : Domain ε) (left : Pass σ β ι)
    (right : Pass τ β ι) : Prop where
  facts : ∀ inst, Option.Rel (first.Matches second) (left.store.get? inst) (right.store.get? inst)
  seeded : ∀ inst ∈ program, (left.store.get? inst).isSome
  entries : ∀ block, Option.Rel (EntryFact.Matches first second) (left.entries.get? block)
    (right.entries.get? block)
  meets : left.meets = right.meets
  transfers : left.transfers = right.transfers
  changes : left.changes = right.changes

theorem Pass.Mirrors.exists_facts {program : List ι} {first second : Domain ε} {left : Pass σ β ι}
    {right : Pass τ β ι} (here : left.Mirrors program first second right) {inst : ι}
    (listed : inst ∈ program) :
    ∃ fact factToo, left.store.get? inst = some fact ∧ right.store.get? inst = some factToo ∧
      first.Matches second fact factToo := by
  obtain ⟨fact, found⟩ := Option.isSome_iff_exists.mp (here.seeded inst listed)
  obtain ⟨factToo, foundToo, matching⟩ := exists_of_rel (found ▸ here.facts inst)
  exact ⟨fact, factToo, found, foundToo, matching⟩

namespace Problem

structure Dual (ahead : Problem σ β ι ν ε) (back : Problem τ β ι ν ε) (recipe : Recipe ι ε) :
    Prop where
  plan : back.plan = ahead.plan
  neighbors : ∀ block, back.client.direction.neighbors back.graph block =
    ahead.client.direction.neighbors ahead.graph block
  exit? : ∀ block, back.client.direction.exit? back.graph block =
    ahead.client.direction.exit? ahead.graph block
  usesBoundary : ∀ block, back.client.direction.usesBoundary back.graph block =
    ahead.client.direction.usesBoundary ahead.graph block
  config : back.config = ahead.config
  obeys : ahead.client.Obeys ahead.graph recipe
  obeysToo : back.client.Obeys back.graph recipe

omit [DecidableEq β] [DecidableEq ε] in
/-- Where the client answers with a fact that fits, the fact is stored and counted. -/
theorem exists_advance {problem : Problem σ β ι ν ε} {session : Session σ β ι ε} (block : β)
    {pass : Pass σ β ι} {inst : ι} {input output old : Fact}
    (answers : ((problem.client.transfer ⟨problem.graph, session.domain, pass.store⟩ inst input).run
      pass.memory).1 = .ok output)
    (found : pass.store.get? inst = some old) (width : old.width = output.width) :
    ∃ memory, (problem.advance session block (input, pass) inst).outcome = .ok (output, { pass with
      store := pass.store.set inst output
      memory
      transfers := pass.transfers + 1
      changes := if old = output then pass.changes else pass.changes + 1 }) := by
  simp only [Problem.advance, Traced.outcome_bind, Call.outcome_traced answers, Except.bind,
    Traced.ofExcept, Store.update_eq found width, found]
  by_cases same : old = output
  · simp only [same, ne_eq, not_true_eq_false, decide_false, Bool.false_eq_true, if_false, if_true]
    exact ⟨_, rfl⟩
  · simp only [Option.some.injEq, same, ne_eq, not_false_eq_true, decide_true, if_true, if_false]
    exact ⟨_, rfl⟩

variable {ahead : Problem σ β ι ν ε} {back : Problem τ β ι ν ε} {recipe : Recipe ι ε}
  (dual : ahead.Dual back recipe) {left : Session σ β ι ε} {right : Session τ β ι ε}
  (same : left.domain.SameElements right.domain)
  (edge : left.domain.Matches right.domain left.boundary right.boundary)
  {program : List ι} {pass : Pass σ β ι} {passToo : Pass τ β ι}
  (here : pass.Mirrors program left.domain right.domain passToo)

include dual

include here in
theorem Dual.arriving (block : β) :
    List.Forall₂ (left.domain.Matches right.domain)
      ((ahead.arriving pass.store block).map Neighbor.fact)
      ((back.arriving passToo.store block).map Neighbor.fact) := by
  unfold Problem.arriving
  simp only [dual.neighbors, dual.exit?]
  induction ahead.client.direction.neighbors ahead.graph block with
  | nil => exact .nil
  | cons neighbor rest ih =>
    rw [List.filterMap_cons, List.filterMap_cons]
    cases ahead.client.direction.exit? ahead.graph neighbor with
    | none => exact ih
    | some inst =>
      have facts := here.facts inst
      simp only [Option.bind_some]
      generalize pass.store.get? inst = found at facts
      generalize passToo.store.get? inst = foundToo at facts
      cases facts with
      | none => exact ih
      | some matching => exact .cons matching ih

include edge here in
theorem Dual.enter (block : β) :
    Agree (fun entered enteredToo => entered.1.Matches left.domain right.domain enteredToo.1 ∧
        entered.2.Mirrors program left.domain right.domain enteredToo.2)
      (ahead.enter left pass block).outcome (back.enter right passToo block).outcome := by
  have arriving := dual.arriving here block
  have empty : (back.arriving passToo.store block).isEmpty =
      (ahead.arriving pass.store block).isEmpty := by
    have lengths := arriving.length_eq
    rw [List.length_map, List.length_map] at lengths
    rw [Bool.eq_iff_iff, List.isEmpty_iff, List.isEmpty_iff, ← List.length_eq_zero_iff,
      ← List.length_eq_zero_iff, lengths]
  unfold Problem.enter
  simp only [dual.usesBoundary, empty]
  split
  · exact .of_ok ⟨.boundary edge, here⟩
  · obtain ⟨fact, factToo, met, metToo, matching⟩ := Domain.Matches.meet arriving recipe.meet
    have answered := (dual.obeys.meet left.domain pass.store block _ pass.memory).trans met
    have answeredToo :=
      (dual.obeysToo.meet right.domain passToo.store block _ passToo.memory).trans metToo
    rw [Traced.outcome_bind, Traced.outcome_bind, Call.outcome_traced answered,
      Call.outcome_traced answeredToo]
    exact .of_ok ⟨.meet matching, here.facts, here.seeded, here.entries,
      congrArg (· + 1) here.meets, here.transfers, here.changes⟩

include same here in
theorem Dual.advance (block : β) {inst : ι} (listed : inst ∈ program) {input inputToo : Fact}
    (inputs : left.domain.Matches right.domain input inputToo) :
    Agree (fun advanced advancedToo => left.domain.Matches right.domain advanced.1 advancedToo.1 ∧
        advanced.2.Mirrors program left.domain right.domain advancedToo.2)
      (ahead.advance left block (input, pass) inst).outcome
      (back.advance right block (inputToo, passToo) inst).outcome := by
  obtain ⟨output, outputToo, turned, turnedToo, outputs⟩ := inputs.transfer recipe inst
  obtain ⟨old, oldToo, found, foundToo, olds⟩ := here.exists_facts listed
  obtain ⟨memory, advanced⟩ := exists_advance block
    ((dual.obeys.transfer left.domain pass.store inst input pass.memory).trans turned) found
    (olds.width.trans outputs.width.symm)
  obtain ⟨memoryToo, advancedToo⟩ := exists_advance block
    ((dual.obeysToo.transfer right.domain passToo.store inst inputToo passToo.memory).trans
      turnedToo) foundToo (olds.widthToo.trans outputs.widthToo.symm)
  refine ⟨_, _, advanced, advancedToo, outputs, ⟨fun other => ?_, fun other member => ?_,
    here.entries, here.meets, congrArg (· + 1) here.transfers, ?_⟩⟩
  · simp only [Assignment.get?_set]
    split
    · exact .some outputs
    · exact here.facts other
  · simp only [Assignment.get?_set]
    split
    · rfl
    · exact here.seeded other member
  · simp only [Domain.Matches.eq_iff same olds outputs, here.changes]

include same here in
theorem Dual.advances (block : β) {insts : List ι} (listed : ∀ inst ∈ insts, inst ∈ program)
    {input inputToo : Fact} (inputs : left.domain.Matches right.domain input inputToo) :
    Agree (fun advanced advancedToo => left.domain.Matches right.domain advanced.1 advancedToo.1 ∧
        advanced.2.Mirrors program left.domain right.domain advancedToo.2)
      (insts.foldlM (ahead.advance left block) (input, pass)).outcome
      (insts.foldlM (back.advance right block) (inputToo, passToo)).outcome := by
  rw [Traced.outcome_foldlM, Traced.outcome_foldlM]
  refine Agree.foldlM (fun inst member _ _ there => ?_) ⟨inputs, here⟩
  exact dual.advance same there.2 block (listed inst member) there.1

omit dual [DecidableEq ε] in
theorem outcome_visit {problem : Problem σ β ι ν ε} {session : Session σ β ι ε} {item : β × List ι}
    {before entered passed : Pass σ β ι} {entry : EntryFact} {last : Fact}
    (enters : (problem.enter session before item.1).outcome = .ok (entry, entered))
    (width : entry.fact.width = session.domain.size)
    (passes : (item.2.foldlM (problem.advance session item.1) (entry.fact, entered)).outcome =
      .ok (last, passed)) :
    (problem.visit session before item).outcome =
      .ok { passed with entries := passed.entries.set item.1 entry } := by
  simp only [Problem.visit, Traced.outcome_bind, enters, Except.bind, Traced.outcome_check, width,
    decide_true, if_true, passes]
  rfl

include same edge here in
theorem Dual.visit {item : β × List ι} (listed : ∀ inst ∈ item.2, inst ∈ program) :
    Agree (Pass.Mirrors program left.domain right.domain) (ahead.visit left pass item).outcome
      (back.visit right passToo item).outcome := by
  obtain ⟨⟨entry, entered⟩, ⟨entryToo, enteredToo⟩, enters, entersToo, entries, there⟩ :=
    dual.enter edge here item.1
  obtain ⟨⟨_, passed⟩, ⟨_, passedToo⟩, passes, passesToo, _, mirrors⟩ :=
    dual.advances same there item.1 listed entries.fact
  refine ⟨_, _, outcome_visit enters entries.fact.width passes,
    outcome_visit entersToo entries.fact.widthToo passesToo, mirrors.facts, mirrors.seeded,
    fun block => ?_, mirrors.meets, mirrors.transfers, mirrors.changes⟩
  simp only [Assignment.get?_set]
  split
  · exact .some entries
  · exact mirrors.entries block

end Problem

structure Session.Mirrors (program : List ι) (left : Session σ β ι ε) (right : Session τ β ι ε) :
    Prop where
  domain : left.domain.SameElements right.domain
  boundary : left.domain.Matches right.domain left.boundary right.boundary
  state : left.opening.Mirrors program left.domain right.domain right.opening
  stats : left.stats = right.stats
  stage : left.stage = right.stage

namespace Problem

variable {ahead : Problem σ β ι ν ε} {back : Problem τ β ι ν ε} {recipe : Recipe ι ε}
  {left : Session σ β ι ε} {right : Session τ β ι ε}

/-- Sweeps that count keep the runs in step, and see changes at the same time. -/
theorem Dual.sweep_running (dual : ahead.Dual back recipe)
    (mirrors : left.Mirrors ahead.graph.program right) (running : left.stage ≠ .converged) :
    Agree (fun swept sweptToo => swept.1 = sweptToo.1 ∧
        swept.2.Mirrors ahead.graph.program sweptToo.2)
      (ahead.sweep left).outcome (back.sweep right).outcome := by
  have listed : ∀ item ∈ ahead.plan, ∀ inst ∈ item.2, inst ∈ ahead.graph.program :=
    fun item member inst among =>
      ahead.plan_perm.mem_iff.mp (List.mem_flatMap.mpr ⟨item, member, among⟩)
  obtain ⟨pass, passToo, visited, visitedToo, there⟩ : Agree
      (Pass.Mirrors ahead.graph.program left.domain right.domain)
      (ahead.traverse left).outcome (back.traverse right).outcome := by
    unfold Problem.traverse
    rw [Traced.outcome_foldlM, Traced.outcome_foldlM, dual.plan]
    refine Agree.foldlM (fun item member _ _ here => ?_) mirrors.state
    exact dual.visit mirrors.domain mirrors.boundary here (listed item member)
  have runningToo : right.stage ≠ .converged := mirrors.stage ▸ running
  simp only [Problem.sweep, Traced.outcome_bind, visited, visitedToo, Except.bind, if_neg running,
    if_neg runningToo]
  refine .of_ok ⟨by rw [there.changes], mirrors.domain, mirrors.boundary, ?_, ?_, ?_⟩
  · exact ⟨there.facts, there.seeded, there.entries, rfl, rfl, rfl⟩
  · rw [mirrors.stats, there.meets, there.transfers, there.changes]
  · simp only [there.changes]

omit [DecidableEq β] [DecidableEq ι] in
theorem isPure_of_obeys {problem : Problem σ β ι ν ε}
    (obeys : problem.client.Obeys problem.graph recipe) : problem.IsPure where
  meet := fun domain store block neighbors memory other =>
    (obeys.meet domain store block neighbors memory).trans
      (obeys.meet domain store block neighbors other).symm
  transfer := fun domain store inst input memory other =>
    (obeys.transfer domain store inst input memory).trans
      (obeys.transfer domain store inst input other).symm

structure InStep (ahead : Problem σ β ι ν ε) (back : Problem τ β ι ν ε) (left : Session σ β ι ε)
    (right : Session τ β ι ε) : Prop where
  reached : ∃ first, ahead.Starts first ∧ ahead.Sweeps first left
  reachedToo : ∃ first, back.Starts first ∧ back.Sweeps first right
  mirrors : left.Mirrors ahead.graph.program right

/-- Every sweep keeps the runs in step. After convergence it does because it changes nothing. -/
theorem Dual.sweep (dual : ahead.Dual back recipe) (inStep : ahead.InStep back left right) :
    Agree (fun swept sweptToo => swept.1 = sweptToo.1 ∧ ahead.InStep back swept.2 sweptToo.2)
      (ahead.sweep left).outcome (back.sweep right).outcome := by
  obtain ⟨⟨first, started, sweeps⟩, ⟨second, startedToo, sweepsToo⟩, mirrors⟩ := inStep
  have agree : Agree (fun swept sweptToo => swept.1 = sweptToo.1 ∧
      swept.2.Mirrors ahead.graph.program sweptToo.2)
      (ahead.sweep left).outcome (back.sweep right).outcome := by
    by_cases converged : left.stage = .converged
    · obtain ⟨memory, swept⟩ :=
        started.sweep_converged (isPure_of_obeys dual.obeys) sweeps converged
      obtain ⟨memoryToo, sweptToo⟩ :=
        startedToo.sweep_converged (isPure_of_obeys dual.obeysToo) sweepsToo
          (mirrors.stage ▸ converged)
      rw [swept, sweptToo]
      have state := mirrors.state
      exact .of_ok ⟨rfl, mirrors.domain, mirrors.boundary,
        ⟨state.facts, state.seeded, state.entries, rfl, rfl, rfl⟩, mirrors.stats, mirrors.stage⟩
    · exact dual.sweep_running mirrors converged
  obtain ⟨⟨changed, next⟩, ⟨changedToo, nextToo⟩, swept, sweptToo, answer, there⟩ := agree
  exact ⟨_, _, swept, sweptToo, answer, ⟨first, started, sweeps.tail ⟨_, swept⟩⟩,
    ⟨second, startedToo, sweepsToo.tail ⟨_, sweptToo⟩⟩, there⟩

/-- Any number of sweeps gives the same answers. -/
theorem Dual.sweepTimes (dual : ahead.Dual back recipe) (times : Nat)
    (inStep : ahead.InStep back left right) :
    ∃ answers next nextToo,
      (Solver.sweepTimes times ⟨ahead, some left⟩).outcome = .ok (answers, ⟨ahead, some next⟩) ∧
      (Solver.sweepTimes times ⟨back, some right⟩).outcome = .ok (answers, ⟨back, some nextToo⟩) ∧
      ahead.InStep back next nextToo := by
  induction times generalizing left right with
  | zero => exact ⟨[], left, right, rfl, rfl, inStep⟩
  | succ times ih =>
    obtain ⟨⟨changed, middle⟩, ⟨_, middleToo⟩, swept, sweptToo, rfl, there⟩ := dual.sweep inStep
    obtain ⟨answers, next, nextToo, others, othersToo, ends⟩ := ih there
    exact ⟨changed :: answers, next, nextToo, sweepTimes_succ swept others,
      sweepTimes_succ sweptToo othersToo, ends⟩

end Problem

inductive SameOutcome {α γ : Type} (related : α → γ → Prop) :
    Except (SolveError β ι) α → Except (SolveError β ι) γ → Prop where
  | solved {left : α} {right : γ} (here : related left right) :
      SameOutcome related (.ok left) (.ok right)
  | failed (error : SolveError β ι) : SameOutcome related (.error error) (.error error)

namespace Problem

variable {ahead : Problem σ β ι ν ε} {back : Problem τ β ι ν ε} {recipe : Recipe ι ε}
  {left : Session σ β ι ε} {right : Session τ β ι ε}

/-- The loops stop at the same time and in the same way, or both go on. -/
theorem Dual.iterate_stops (dual : ahead.Dual back recipe) (patience : Nat)
    (inStep : ahead.InStep back left right) :
    Agree (Option.Rel (SameOutcome fun final finalToo =>
        ahead.InStep back final finalToo ∧ final.stage = .converged))
      (ahead.iterate patience left).outcome (back.iterate patience right).outcome ∨
    (left.stage ≠ .converged ∧ ahead.atLimit left.stats.sweeps = false) ∧
      right.stage ≠ .converged ∧ back.atLimit right.stats.sweeps = false := by
  have stage := inStep.mirrors.stage
  have stats := inStep.mirrors.stats
  have limits : back.atLimit right.stats.sweeps = ahead.atLimit left.stats.sweeps := by
    rw [atLimit, atLimit, dual.config, stats]
  by_cases converged : left.stage = .converged
  · rw [iterate_of_converged converged, iterate_of_converged (stage ▸ converged)]
    exact Or.inl (.of_ok (.some (.solved ⟨inStep, converged⟩)))
  · have running : right.stage ≠ .converged := stage ▸ converged
    cases limit : ahead.atLimit left.stats.sweeps with
    | true =>
      rw [outcome_iterate_of_atLimit converged limit,
        outcome_iterate_of_atLimit running (limits.trans limit), stats]
      exact Or.inl (.of_ok (.some (.failed _)))
    | false => exact Or.inr ⟨⟨converged, rfl⟩, running, limits.trans limit⟩

theorem Dual.iterate (dual : ahead.Dual back recipe) (patience : Nat)
    (inStep : ahead.InStep back left right) :
    Agree (Option.Rel (SameOutcome fun final finalToo =>
        ahead.InStep back final finalToo ∧ final.stage = .converged))
      (ahead.iterate patience left).outcome (back.iterate patience right).outcome := by
  induction patience generalizing left right with
  | zero =>
    rcases dual.iterate_stops 0 inStep with stops | ⟨⟨running, below⟩, runningToo, belowToo⟩
    · exact stops
    · rw [iterate_zero running below, iterate_zero runningToo belowToo]
      exact .of_ok .none
  | succ patience ih =>
    rcases dual.iterate_stops (patience + 1) inStep with
      stops | ⟨⟨running, below⟩, runningToo, belowToo⟩
    · exact stops
    · rw [iterate_succ running below, iterate_succ runningToo belowToo, Traced.outcome_bind,
        Traced.outcome_bind]
      exact (dual.sweep inStep).bind fun _ _ swept => ih swept.2

end Problem

end Dataflow
