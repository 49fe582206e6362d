import Dataflow.Proofs.Solver.Loop
import Mathlib.Logic.Relation

/-! What the steps of a run do, whatever the client. A step that ends has asked the client once
and done one thing with the answer; it never gives a fact to another instruction or changes a
fact's width, and it counts a change exactly when a stored fact differs. A solver that is driven by
hand goes through the same sessions as one that runs to the end. -/
namespace Dataflow

def Store.SameShape {ι : Type} [DecidableEq ι] (first second : Store ι) : Prop :=
  ∀ inst, (second.get? inst).map Fact.width = (first.get? inst).map Fact.width

theorem Store.SameShape.set {ι : Type} [DecidableEq ι] {store : Store ι} {inst : ι} {old fact : Fact}
    (found : store.get? inst = some old) (width : old.width = fact.width) :
    store.SameShape (Assignment.set store inst fact) := by
  intro other
  rw [Assignment.get?_set]
  split
  · next same => simp [same, found, width]
  · rfl

theorem Store.update_eq_ok {ι : Type} [DecidableEq ι] {store next : Store ι} {inst : ι} {fact : Fact}
    {changed : Bool} (updated : store.update inst fact = .ok (changed, next)) :
    ∃ old, store.get? inst = some old ∧ old.width = fact.width ∧ changed = decide (old ≠ fact) ∧
      next = store.set inst fact := by
  cases found : store.get? inst with
  | none => simp [Store.update, found] at updated
  | some old =>
    by_cases width : old.width = fact.width
    · rw [Store.update_eq found width] at updated
      cases updated
      exact ⟨old, rfl, width, by simp [found], rfl⟩
    · simp [Store.update, found, width] at updated

variable {σ β ι ν ε : Type} [DecidableEq β] [DecidableEq ι]

namespace Problem

variable {problem : Problem σ β ι ν ε} {session next : Session σ β ι ε}

omit [DecidableEq β] in
theorem advance_eq_ok {block : β} {input output : Fact} {pass after : Pass σ β ι} {inst : ι}
    (advanced : (problem.advance session block (input, pass) inst).outcome = .ok (output, after)) :
    ∃ old, ((problem.client.transfer ⟨problem.graph, session.domain, pass.store⟩ inst input).run
        pass.memory) = (.ok output, after.memory) ∧
      pass.store.get? inst = some old ∧ old.width = output.width ∧
      after = { pass with
        store := pass.store.set inst output
        memory := after.memory
        transfers := pass.transfers + 1
        changes := if old = output then pass.changes else pass.changes + 1 } := by
  unfold Problem.advance at advanced
  obtain ⟨⟨given, memory⟩, asked, advanced⟩ := Traced.outcome_bind_eq_ok.mp advanced
  obtain ⟨⟨changed, store⟩, updated, advanced⟩ := Traced.outcome_bind_eq_ok.mp advanced
  obtain ⟨answered, remembered⟩ := Call.outcome_traced_eq_ok.mp asked
  obtain ⟨old, found, width, rfl, rfl⟩ := Store.update_eq_ok updated
  by_cases same : old = given
  · simp only [same, ne_eq, not_true_eq_false, decide_false, Bool.false_eq_true, if_false] at advanced
    cases advanced
    exact ⟨old, Prod.ext answered remembered, found, width, by simp [same]⟩
  · simp only [same, ne_eq, not_false_eq_true, decide_true, if_true] at advanced
    cases advanced
    exact ⟨old, Prod.ext answered remembered, found, width, by simp [same]⟩

theorem enter_eq_ok {block : β} {pass after : Pass σ β ι} {entry : EntryFact}
    (entered : (problem.enter session pass block).outcome = .ok (entry, after)) :
    (entry = .boundary session.boundary ∧ after = pass ∧
      (problem.client.direction.usesBoundary problem.graph block = true ∨
        problem.arriving pass.store block = [])) ∨
    ∃ fact, entry = .meet fact ∧
      problem.client.direction.usesBoundary problem.graph block = false ∧
      problem.arriving pass.store block ≠ [] ∧
      (problem.client.meet ⟨problem.graph, session.domain, pass.store⟩ block
        (problem.arriving pass.store block)).run pass.memory = (.ok fact, after.memory) ∧
      after = { pass with memory := after.memory, meets := pass.meets + 1 } := by
  unfold Problem.enter at entered
  dsimp only at entered
  split at entered
  · next outer =>
    cases entered
    exact Or.inl ⟨rfl, rfl, by simpa using outer⟩
  · next inner =>
    obtain ⟨⟨fact, memory⟩, asked, entered⟩ := Traced.outcome_bind_eq_ok.mp entered
    obtain ⟨answered, remembered⟩ := Call.outcome_traced_eq_ok.mp asked
    cases entered
    simp only [Bool.or_eq_true, List.isEmpty_iff, not_or, Bool.not_eq_true] at inner
    exact Or.inr ⟨fact, rfl, inner.1, inner.2, Prod.ext answered remembered, rfl⟩

theorem visit_eq_ok {block : β} {insts : List ι} {pass after : Pass σ β ι}
    (visited : (problem.visit session pass (block, insts)).outcome = .ok after) :
    ∃ entry entered last passed, (problem.enter session pass block).outcome = .ok (entry, entered) ∧
      entry.fact.width = session.domain.size ∧
      (insts.foldlM (problem.advance session block) (entry.fact, entered)).outcome =
        .ok (last, passed) ∧
      after = { passed with entries := passed.entries.set block entry } := by
  unfold Problem.visit at visited
  obtain ⟨⟨entry, entered⟩, enters, visited⟩ := Traced.outcome_bind_eq_ok.mp visited
  obtain ⟨_, checked, visited⟩ := Traced.outcome_bind_eq_ok.mp visited
  obtain ⟨⟨last, passed⟩, passes, visited⟩ := Traced.outcome_bind_eq_ok.mp visited
  cases visited
  exact ⟨entry, entered, last, passed, enters, by simpa using checked, passes, rfl⟩

end Problem

def Session.opening (session : Session σ β ι ε) : Pass σ β ι :=
  ⟨session.store, session.entries, session.memory, 0, 0, 0⟩

def Session.counted (session : Session σ β ι ε) (pass : Pass σ β ι) : Session σ β ι ε :=
  { session.after pass with
    stats := { session.stats with
      sweeps := session.stats.sweeps + 1
      meets := session.stats.meets + pass.meets
      transfers := session.stats.transfers + pass.transfers
      changedInstructions := session.stats.changedInstructions + pass.changes }
    stage := if 0 < pass.changes then .iterating else .converged }

namespace Problem

variable {problem : Problem σ β ι ν ε} {session next : Session σ β ι ε}

/-- A sweep counts, or it verifies and finds no change. -/
theorem sweep_eq_ok {changed : Bool} (swept : (problem.sweep session).outcome = .ok (changed, next)) :
    ∃ pass, (problem.plan.foldlM (problem.visit session) session.opening).outcome = .ok pass ∧
      ((session.stage = .converged ∧ pass.changes = 0 ∧ changed = false ∧ next = session.after pass) ∨
        (session.stage ≠ .converged ∧ changed = decide (0 < pass.changes) ∧
          next = session.counted pass)) := by
  unfold Problem.sweep at swept
  obtain ⟨pass, traversed, swept⟩ := Traced.outcome_bind_eq_ok.mp swept
  refine ⟨pass, traversed, ?_⟩
  split at swept
  · next converged =>
    obtain ⟨_, checked, swept⟩ := Traced.outcome_bind_eq_ok.mp swept
    cases swept
    exact Or.inl ⟨converged, by simpa using checked, rfl, rfl⟩
  · next running =>
    cases swept
    exact Or.inr ⟨running, rfl, by simp [Session.counted]⟩

end Problem

structure Pass.Kept (before after : Pass σ β ι) : Prop where
  shape : before.store.SameShape after.store
  changes : before.changes ≤ after.changes
  steady : after.changes = before.changes → after.store = before.store

namespace Pass.Kept

omit [DecidableEq β] in
theorem refl (pass : Pass σ β ι) : Kept pass pass := ⟨fun _ => rfl, Nat.le_refl _, fun _ => rfl⟩

omit [DecidableEq β] in
theorem trans {before middle after : Pass σ β ι} (early : Kept before middle)
    (late : Kept middle after) : Kept before after := by
  refine ⟨fun inst => (late.shape inst).trans (early.shape inst),
    Nat.le_trans early.changes late.changes, fun same => ?_⟩
  have first := early.changes
  have second := late.changes
  exact (late.steady (by omega)).trans (early.steady (by omega))

end Pass.Kept

namespace Problem

variable {problem : Problem σ β ι ν ε} {session next : Session σ β ι ε}

omit [DecidableEq β] in
theorem kept_of_advance {block : β} {input output : Fact} {pass after : Pass σ β ι} {inst : ι}
    (advanced : (problem.advance session block (input, pass) inst).outcome = .ok (output, after)) :
    pass.Kept after := by
  obtain ⟨old, _, found, width, same⟩ := advance_eq_ok advanced
  rw [same]
  refine ⟨Store.SameShape.set found width, ?_, ?_⟩
  · dsimp only
    split
    · exact Nat.le_refl _
    · exact Nat.le_succ _
  · dsimp only
    split
    · next equal =>
      subst equal
      exact fun _ => Assignment.set_eq_self found
    · intro impossible
      omega

omit [DecidableEq β] in
theorem kept_of_advances {block : β} {input output : Fact} {pass after : Pass σ β ι} {insts : List ι}
    (advanced : (insts.foldlM (problem.advance session block) (input, pass)).outcome =
      .ok (output, after)) : pass.Kept after ∧ after.entries = pass.entries := by
  induction insts generalizing input pass with
  | nil =>
    cases advanced
    exact ⟨.refl _, rfl⟩
  | cons inst rest ih =>
    rw [List.foldlM_cons] at advanced
    obtain ⟨⟨middle, between⟩, first, others⟩ := Traced.outcome_bind_eq_ok.mp advanced
    obtain ⟨kept, entries⟩ := ih others
    obtain ⟨_, _, _, _, same⟩ := advance_eq_ok first
    exact ⟨(kept_of_advance first).trans kept, by rw [entries, same]⟩

theorem kept_of_enter {block : β} {pass after : Pass σ β ι} {entry : EntryFact}
    (entered : (problem.enter session pass block).outcome = .ok (entry, after)) :
    pass.Kept after ∧ after.store = pass.store ∧ after.entries = pass.entries ∧
      after.changes = pass.changes := by
  rcases enter_eq_ok entered with ⟨_, rfl, _⟩ | ⟨_, _, _, _, _, same⟩
  · exact ⟨.refl _, rfl, rfl, rfl⟩
  · rw [same]
    exact ⟨⟨fun _ => rfl, Nat.le_refl _, fun _ => rfl⟩, rfl, rfl, rfl⟩

theorem kept_of_visit {item : β × List ι} {pass after : Pass σ β ι}
    (visited : (problem.visit session pass item).outcome = .ok after) : pass.Kept after := by
  obtain ⟨entry, entered, last, passed, enters, _, passes, rfl⟩ := visit_eq_ok visited
  obtain ⟨kept, _⟩ := kept_of_advances passes
  have whole := (kept_of_enter enters).1.trans kept
  exact ⟨whole.shape, whole.changes, whole.steady⟩

theorem kept_of_visits {items : List (β × List ι)} {pass after : Pass σ β ι}
    (visited : (items.foldlM (problem.visit session) pass).outcome = .ok after) :
    pass.Kept after := by
  induction items generalizing pass with
  | nil =>
    cases visited
    exact .refl _
  | cons item rest ih =>
    rw [List.foldlM_cons] at visited
    obtain ⟨middle, first, others⟩ := Traced.outcome_bind_eq_ok.mp visited
    exact (kept_of_visit first).trans (ih others)

def SweepsTo (problem : Problem σ β ι ν ε) (session next : Session σ β ι ε) : Prop :=
  ∃ changed, (problem.sweep session).outcome = .ok (changed, next)

def Sweeps (problem : Problem σ β ι ν ε) : Session σ β ι ε → Session σ β ι ε → Prop :=
  Relation.ReflTransGen problem.SweepsTo

theorem SweepsTo.sameRun (swept : problem.SweepsTo session next) : session.SameRun next := by
  obtain ⟨_, swept⟩ := swept
  obtain ⟨pass, _, ⟨_, _, _, rfl⟩ | ⟨_, _, rfl⟩⟩ := sweep_eq_ok swept
  · exact ⟨rfl, rfl, rfl, rfl⟩
  · exact ⟨rfl, rfl, rfl, rfl⟩

theorem Sweeps.sameRun (swept : problem.Sweeps session next) : session.SameRun next := by
  induction swept with
  | refl => exact ⟨rfl, rfl, rfl, rfl⟩
  | tail _ step ih => exact ih.trans step.sameRun

theorem SweepsTo.sameShape (swept : problem.SweepsTo session next) :
    session.store.SameShape next.store := by
  obtain ⟨_, swept⟩ := swept
  obtain ⟨pass, visited, ⟨_, _, _, rfl⟩ | ⟨_, _, rfl⟩⟩ := sweep_eq_ok swept
  · exact (kept_of_visits visited).shape
  · exact (kept_of_visits visited).shape

theorem Sweeps.sameShape (swept : problem.Sweeps session next) :
    session.store.SameShape next.store := by
  induction swept with
  | refl => exact fun _ => rfl
  | tail _ step ih => exact fun inst => (step.sameShape inst).trans (ih inst)

/-- Convergence is never left. -/
theorem Sweeps.converged (swept : problem.Sweeps session next)
    (converged : session.stage = .converged) : next.stage = .converged := by
  induction swept with
  | refl => exact converged
  | tail _ step ih =>
    obtain ⟨_, step⟩ := step
    obtain ⟨pass, _, ⟨_, _, _, rfl⟩ | ⟨running, _⟩⟩ := sweep_eq_ok step
    · exact ih
    · exact absurd ih running

theorem outcome_iterate_of_atLimit (running : session.stage ≠ .converged)
    (limit : problem.atLimit session.stats.sweeps = true) (patience : Nat) :
    (problem.iterate patience session).outcome =
      .ok (some (.error (.noFixpoint session.stats.sweeps))) := by
  cases patience <;> rw [iterate, if_neg running, if_pos limit] <;> rfl

theorem iterate_eq_ok {patience : Nat} {final : Session σ β ι ε}
    (run : (problem.iterate patience session).outcome = .ok (some (.ok final))) :
    (session.stage = .converged ∧ final = session) ∨
      ∃ fewer next, patience = fewer + 1 ∧ problem.SweepsTo session next ∧
        (problem.iterate fewer next).outcome = .ok (some (.ok final)) := by
  by_cases converged : session.stage = .converged
  · rw [iterate_of_converged converged] at run
    cases run
    exact Or.inl ⟨converged, rfl⟩
  · cases limit : problem.atLimit session.stats.sweeps with
    | true =>
      rw [outcome_iterate_of_atLimit converged limit] at run
      cases run
    | false =>
      cases patience with
      | zero =>
        rw [iterate_zero converged limit] at run
        cases run
      | succ fewer =>
        rw [iterate_succ converged limit] at run
        obtain ⟨⟨changed, next⟩, swept, run⟩ := Traced.outcome_bind_eq_ok.mp run
        exact Or.inr ⟨fewer, next, rfl, ⟨changed, swept⟩, run⟩

/-- The loop gives a session away only when it has converged. -/
theorem sweeps_of_iterate {patience : Nat} {final : Session σ β ι ε}
    (run : (problem.iterate patience session).outcome = .ok (some (.ok final))) :
    problem.Sweeps session final ∧ final.stage = .converged := by
  induction patience generalizing session with
  | zero =>
    rcases iterate_eq_ok run with ⟨converged, rfl⟩ | ⟨_, _, more, _⟩
    · exact ⟨.refl, converged⟩
    · cases more
  | succ patience ih =>
    rcases iterate_eq_ok run with ⟨converged, rfl⟩ | ⟨_, next, more, swept, run⟩
    · exact ⟨.refl, converged⟩
    · cases more
      obtain ⟨others, ends⟩ := ih run
      exact ⟨others.head swept, ends⟩

def resultsOf (problem : Problem σ β ι ν ε) (session : Session σ β ι ε) : Results β ι ε where
  domain := session.domain
  names := (session.domain.elements.map (problem.client.elementName problem.graph)).toArray
  store := session.store
  entries := session.entries
  direction := problem.client.direction
  stats := session.stats

theorem conclude_eq_ok {results : Results β ι ε}
    (concluded : (problem.conclude session).outcome = .ok results) :
    session.stage = .converged ∧ ∃ final, problem.Sweeps session final ∧
      results = problem.resultsOf final := by
  unfold conclude at concluded
  obtain ⟨_, checked, concluded⟩ := Traced.outcome_bind_eq_ok.mp concluded
  refine ⟨by simpa using checked, ?_⟩
  dsimp only at concluded
  split at concluded
  · obtain ⟨final, verified, concluded⟩ := Traced.outcome_bind_eq_ok.mp concluded
    rw [map_eq_pure_bind] at verified
    obtain ⟨⟨changed, swept⟩, sweeps, same⟩ := Traced.outcome_bind_eq_ok.mp verified
    cases same
    cases concluded
    exact ⟨swept, .single ⟨changed, sweeps⟩, rfl⟩
  · cases concluded
    exact ⟨session, .refl, rfl⟩

end Problem

variable [DecidableEq ε]

inductive Solver.Driven (problem : Problem σ β ι ν ε) : Solver σ β ι ν ε → Prop where
  | fresh : Driven problem (Solver.ofProblem problem)
  | started {solver next : Solver σ β ι ν ε} {answer : Except (SolveError β ι) Unit}
      (driven : Driven problem solver) (starts : solver.start.outcome = .ok (answer, next)) :
      Driven problem next
  | swept {solver next : Solver σ β ι ν ε} {changed : Bool} (driven : Driven problem solver)
      (sweeps : solver.sweep.outcome = .ok (changed, next)) : Driven problem next

namespace Solver.Driven

variable {problem : Problem σ β ι ν ε} {solver : Solver σ β ι ν ε}

/-- A driven solver stands where some number of sweeps leads from the start of its run. -/
theorem reached (driven : Driven problem solver) : solver.problem = problem ∧
    ∀ session, solver.session? = some session →
      ∃ first, problem.Starts first ∧ problem.Sweeps first session := by
  induction driven with
  | fresh => exact ⟨rfl, fun _ none => by cases none⟩
  | @started solver next answer _ starts ih =>
    obtain ⟨owner, session?⟩ := solver
    obtain ⟨rfl, _⟩ := ih
    cases session? with
    | some session => cases starts
    | none =>
      obtain ⟨answered, _, run⟩ := Traced.outcome_bind_eq_ok.mp starts
      cases answered with
      | error error =>
        cases run
        exact ⟨rfl, fun _ none => by cases none⟩
      | ok session =>
        cases run
        refine ⟨rfl, fun other here => ?_⟩
        cases here
        exact ⟨session, starts, .refl⟩
  | @swept solver next changed _ sweeps ih =>
    obtain ⟨owner, session?⟩ := solver
    obtain ⟨rfl, sessions⟩ := ih
    cases session? with
    | none => cases sweeps
    | some session =>
      obtain ⟨⟨_, after⟩, swept, same⟩ := Traced.outcome_bind_eq_ok.mp sweeps
      cases same
      obtain ⟨first, started, reached⟩ := sessions session rfl
      refine ⟨rfl, fun other here => ?_⟩
      cases here
      exact ⟨first, started, reached.tail ⟨_, swept⟩⟩

/-- The run that a driven solver goes on with has come about by sweeps. -/
theorem reached_of_running (driven : Driven problem solver) {session : Session σ β ι ε}
    (ran : solver.running.outcome = .ok (.ok session)) :
    ∃ first, problem.Starts first ∧ problem.Sweeps first session := by
  obtain ⟨rfl, sessions⟩ := driven.reached
  obtain ⟨problem, session?⟩ := solver
  cases session? with
  | some under =>
    cases ran
    exact sessions session rfl
  | none =>
    refine ⟨session, ?_, .refl⟩
    exact Traced.outcome_bind_eq_ok.mpr ⟨.ok session, ran, rfl⟩

/-- Results come from a session that sweeps have led to, and that has converged. -/
theorem trySolve_eq_ok (driven : Driven problem solver) {patience : Nat} {results : Results β ι ε}
    (solved : (solver.trySolve patience).outcome = .ok (some (.ok results))) :
    ∃ first final, problem.Starts first ∧ problem.Sweeps first final ∧ final.stage = .converged ∧
      results = problem.resultsOf final := by
  unfold Solver.trySolve at solved
  obtain ⟨running, ran, solved⟩ := Traced.outcome_bind_eq_ok.mp solved
  cases running with
  | error error => cases solved
  | ok session =>
    obtain ⟨first, started, sweeps⟩ := driven.reached_of_running ran
    obtain ⟨rfl, _⟩ := driven.reached
    obtain ⟨iterated, looped, solved⟩ := Traced.outcome_bind_eq_ok.mp solved
    cases iterated with
    | none => cases solved
    | some ended =>
      cases ended with
      | error error => cases solved
      | ok converged =>
        obtain ⟨given, concluded, solved⟩ := Traced.outcome_bind_eq_ok.mp solved
        cases solved
        obtain ⟨others, _⟩ := Problem.sweeps_of_iterate looped
        obtain ⟨stage, final, last, rfl⟩ := Problem.conclude_eq_ok concluded
        exact ⟨first, final, started, (sweeps.trans others).trans last, last.converged stage, rfl⟩

end Solver.Driven

end Dataflow
