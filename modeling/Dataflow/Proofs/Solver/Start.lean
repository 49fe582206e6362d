import Dataflow.Proofs.Solver.Run

/-! The start of a run. A run starts only if no instruction is listed twice; it then holds the
same fact for every listed instruction, in the order of its direction, and has counted nothing. -/
namespace Dataflow

namespace Store

variable {ι : Type} [DecidableEq ι]

theorem seedAll_eq_ok_iff {store result : Store ι} {fact : Fact} {insts : List ι} :
    store.seedAll fact insts = .ok result ↔ insts.Nodup ∧ (∀ inst ∈ insts, store.get? inst = none) ∧
      result = store.record (insts.map fun inst => (inst, fact)) := by
  induction insts generalizing store with
  | nil =>
    simp only [seedAll, List.foldlM_nil]
    constructor
    · rintro ⟨⟩
      exact ⟨List.nodup_nil, by simp, rfl⟩
    · rintro ⟨_, _, rfl⟩
      rfl
  | cons inst rest ih =>
    have step : store.seedAll fact (inst :: rest) =
        if (store.get? inst).isSome then .error .seededTwice
        else seedAll (store.set inst fact) fact rest := by
      simp only [seedAll, seed, List.foldlM_cons]
      split <;> rfl
    rw [step, List.nodup_cons, List.forall_mem_cons]
    cases found : store.get? inst with
    | some old => simp
    | none =>
      simp only [Option.isSome_none, Bool.false_eq_true, if_false, ih, true_and]
      constructor
      · rintro ⟨distinct, fresh, rfl⟩
        have absent : inst ∉ rest := fun member => by simpa using fresh inst member
        refine ⟨⟨absent, distinct⟩, fun other member => ?_, rfl⟩
        have different : other ≠ inst := fun same => absent (same ▸ member)
        rw [← fresh other member, Assignment.get?_set_ne _ _ different]
      · rintro ⟨⟨absent, distinct⟩, fresh, rfl⟩
        refine ⟨distinct, fun other member => ?_, rfl⟩
        have different : other ≠ inst := fun same => absent (same ▸ member)
        rw [Assignment.get?_set_ne _ _ different]
        exact fresh other member

theorem get?_record_map {store : Store ι} {fact : Fact} {insts : List ι} (distinct : insts.Nodup)
    (inst : ι) : (store.record (insts.map fun inst => (inst, fact))).get? inst =
      if inst ∈ insts then some fact else store.get? inst := by
  have keys : (insts.map fun inst => (inst, fact)).map Prod.fst = insts := by
    rw [List.map_map]
    exact List.map_id insts
  split
  · next member =>
    exact get?_record_of_mem (by rwa [keys]) (List.mem_map_of_mem member)
  · next absent => exact get?_record_of_not_mem (by rwa [keys])

end Store

namespace Problem

variable {σ β ι ν ε : Type}

/-- A plan lists the program, in the order of its direction. -/
theorem plan_perm (problem : Problem σ β ι ν ε) :
    (problem.plan.flatMap Prod.snd).Perm problem.graph.program := by
  unfold plan FlowGraph.program
  rw [List.flatMap_map]
  unfold Direction.blockOrder Direction.instructionOrder
  cases problem.client.direction with
  | forward => exact List.Perm.refl _
  | backward =>
    simp only [List.flatMap_reverse]
    refine (List.reverse_perm _).trans (List.Perm.of_eq ?_)
    congr 1
    funext block
    simp

variable [DecidableEq β] [DecidableEq ι] [DecidableEq ε]

omit [DecidableEq β] in
/-- A run that was started knows its domain, has one fact everywhere and has counted nothing. -/
theorem begin_eq_ok {problem : Problem σ β ι ν ε} {session : Session σ β ι ε}
    (began : problem.begin.outcome = .ok session) :
    problem.graph.program.Nodup ∧ session.boundary.width = session.domain.size ∧
      session.stats = ⟨0, 0, 0, 0, session.domain.size, problem.graph.program.length⟩ ∧
      session.stage = .initialized ∧
      ∃ initial memory, ((problem.client.initial
          ⟨problem.graph, session.domain, Assignment.empty⟩).run memory).1 = .ok initial ∧
        initial.width = session.domain.size ∧
        ∀ inst, session.store.get? inst = if inst ∈ problem.graph.program then some initial else none := by
  unfold Problem.begin at began
  obtain ⟨⟨domain, first⟩, _, began⟩ := Traced.outcome_bind_eq_ok.mp began
  obtain ⟨⟨initial, second⟩, asked, began⟩ := Traced.outcome_bind_eq_ok.mp began
  obtain ⟨⟨boundary, third⟩, _, began⟩ := Traced.outcome_bind_eq_ok.mp began
  obtain ⟨_, sizedInitial, began⟩ := Traced.outcome_bind_eq_ok.mp began
  obtain ⟨_, sizedBoundary, began⟩ := Traced.outcome_bind_eq_ok.mp began
  obtain ⟨store, seeded, began⟩ := Traced.outcome_bind_eq_ok.mp began
  obtain ⟨_, _, began⟩ := Traced.outcome_bind_eq_ok.mp began
  obtain ⟨distinct, _, rfl⟩ := Store.seedAll_eq_ok_iff.mp seeded
  cases began
  have order := problem.plan_perm
  refine ⟨order.nodup_iff.mp distinct, ?_, ?_, rfl, initial, first, ?_, ?_, fun inst => ?_⟩
  · simpa using sizedBoundary
  · simp only [order.length_eq]
  · exact (Call.outcome_traced_eq_ok.mp asked).1
  · simpa using sizedInitial
  · simp only [Store.get?_record_map distinct, order.mem_iff, Assignment.get?_empty]

omit [DecidableEq ι] [DecidableEq ε] in
theorem defect?_of_sound {problem : Problem σ β ι ν ε} (sound : problem.graph.defect? = none) :
    problem.defect? = none := by
  simp [defect?, sound]

omit [DecidableEq ι] [DecidableEq ε] in
theorem defect?_of_trusted {problem : Problem σ β ι ν ε}
    (trusted : problem.config.validateGraph = false) : problem.defect? = none := by
  simp [defect?, trusted]

/-- The run can be started, and this is how it then stands. -/
def Starts (problem : Problem σ β ι ν ε) (session : Session σ β ι ε) : Prop :=
  (Solver.ofProblem problem).start.outcome = .ok (.ok (), ⟨problem, some session⟩)

theorem outcome_running {problem : Problem σ β ι ν ε} (sound : problem.defect? = none) :
    (Solver.ofProblem problem).running.outcome = problem.begin.outcome.map .ok := by
  simp only [Solver.running, Solver.ofProblem, sound]
  cases problem.begin with
  | mk events outcome => cases outcome <;> rfl

theorem starts_iff {problem : Problem σ β ι ν ε} {session : Session σ β ι ε} :
    problem.Starts session ↔ problem.defect? = none ∧ problem.begin.outcome = .ok session := by
  unfold Starts Solver.start
  rw [show (Solver.ofProblem problem).session? = none from rfl]
  simp only [Traced.outcome_bind]
  cases sound : problem.defect? with
  | some defect =>
    have refused : (Solver.ofProblem problem).running = pure (.error (.malformed defect)) := by
      simp only [Solver.running, Solver.ofProblem, sound]
    rw [refused]
    simp [Except.bind, Solver.ofProblem]
  | none =>
    rw [outcome_running sound]
    cases problem.begin.outcome with
    | error fault => simp [Except.map, Except.bind]
    | ok other => simp [Except.map, Except.bind, Solver.ofProblem]

/-- All listed instructions start with a fact that fits the domain, and no others do. -/
theorem Starts.fills {problem : Problem σ β ι ν ε} {session : Session σ β ι ε}
    (started : problem.Starts session) :
    session.store.Fills problem.graph.program session.domain.size := by
  obtain ⟨_, _, _, _, initial, _, _, width, seeded⟩ := begin_eq_ok (starts_iff.mp started).2
  refine ⟨fun inst => ?_, fun inst fact found => ?_⟩
  · rw [seeded]
    by_cases listed : inst ∈ problem.graph.program <;> simp [listed]
  · rw [seeded] at found
    split at found
    · cases found
      exact width
    · cases found

/-- A run starts if every question is answered with facts that fit the domain. -/
theorem starts_of_answers {problem : Problem σ β ι ν ε} {domain : Domain ε} {initial boundary : Fact}
    {first second third : σ} (sound : problem.defect? = none)
    (distinct : problem.graph.program.Nodup)
    (collected : problem.collect.run problem.memory = (.ok domain, first))
    (begins : (problem.client.initial ⟨problem.graph, domain, Assignment.empty⟩).run first =
      (.ok initial, second))
    (bounded : (problem.client.boundary ⟨problem.graph, domain, Assignment.empty⟩).run second =
      (.ok boundary, third))
    (sizedInitial : initial.width = domain.size) (sizedBoundary : boundary.width = domain.size) :
    ∃ session, problem.Starts session ∧ session.domain = domain ∧ session.boundary = boundary := by
  obtain ⟨store, seeded⟩ : ∃ store, Store.seedAll Assignment.empty initial
      (problem.plan.flatMap Prod.snd) = .ok store :=
    ⟨_, Store.seedAll_eq_ok_iff.mpr ⟨problem.plan_perm.nodup_iff.mpr distinct,
      fun inst _ => Assignment.get?_empty inst, rfl⟩⟩
  let stats : Stats := ⟨0, 0, 0, 0, domain.size, (problem.plan.flatMap Prod.snd).length⟩
  refine ⟨⟨domain, boundary, store, Assignment.empty, third, stats, .initialized⟩,
    starts_iff.mpr ⟨sound, ?_⟩, rfl, rfl⟩
  unfold Problem.begin
  refine Traced.outcome_bind_eq_ok.mpr ⟨(domain, first), ?_, ?_⟩
  · exact Call.outcome_traced_eq_ok.mpr (by simp [collected])
  refine Traced.outcome_bind_eq_ok.mpr ⟨(initial, second), ?_, ?_⟩
  · exact Call.outcome_traced_eq_ok.mpr (by simp [begins])
  refine Traced.outcome_bind_eq_ok.mpr ⟨(boundary, third), ?_, ?_⟩
  · exact Call.outcome_traced_eq_ok.mpr (by simp [bounded])
  simp only [sizedInitial, sizedBoundary, decide_true, Traced.outcome_bind, Traced.outcome_check,
    if_true, Except.bind, Traced.ofExcept, seeded]
  rfl

end Problem

/-- Collecting from a list of instructions finds what any of them reports. -/
theorem Domain.mem_foldl_insertAll {ι ε : Type} [DecidableEq ε] (collect : ι → List ε)
    (insts : List ι) (domain : Domain ε) (e : ε) :
    e ∈ (insts.foldl (fun domain inst => domain.insertAll (collect inst)) domain).elements ↔
      e ∈ domain.elements ∨ ∃ inst ∈ insts, e ∈ collect inst := by
  induction insts generalizing domain with
  | nil => simp
  | cons inst rest ih =>
    rw [List.foldl_cons, ih, Domain.mem_insertAll, or_assoc]
    simp

namespace Analysis

variable {β ι ν ε : Type}

abbrev on (analysis : Analysis β ι ν ε) (graph : FlowGraph β ι ν) (config : Config) :
    Problem Unit β ι ν ε := ⟨analysis.client, (), graph, config⟩

variable [DecidableEq ε]

def domain (analysis : Analysis β ι ν ε) (graph : FlowGraph β ι ν) : Domain ε :=
  graph.program.foldl (fun domain inst => domain.insertAll (analysis.collect graph inst)) Domain.empty

theorem mem_domain {analysis : Analysis β ι ν ε} {graph : FlowGraph β ι ν} {e : ε} :
    e ∈ (analysis.domain graph).elements ↔
      ∃ inst ∈ graph.program, e ∈ analysis.collect graph inst := by
  rw [domain, Domain.mem_foldl_insertAll]
  simp [Domain.empty]

theorem run_collect (analysis : Analysis β ι ν ε) (graph : FlowGraph β ι ν) (config : Config) :
    (analysis.on graph config).collect.run () = (.ok (analysis.domain graph), ()) := by
  have folds : ∀ (insts : List ι) (domain : Domain ε),
      (insts.foldlM (fun domain inst => do
        return domain.insertAll (← analysis.client.collect graph inst)) domain : Call Unit _) =
      pure (insts.foldl (fun domain inst => domain.insertAll (analysis.collect graph inst)) domain) := by
    intro insts
    induction insts with
    | nil => intro domain; rfl
    | cons inst rest ih =>
      intro domain
      rw [List.foldlM_cons, List.foldl_cons, ← ih]
      rfl
  unfold Problem.collect
  rw [folds]
  rfl

variable [DecidableEq β] [DecidableEq ι]

/-- An analysis of a program without repetitions starts, if its first facts fit the domain. -/
theorem starts {analysis : Analysis β ι ν ε} {graph : FlowGraph β ι ν} {config : Config}
    {initial boundary : Fact} (sound : (analysis.on graph config).defect? = none)
    (distinct : graph.program.Nodup)
    (begins : analysis.initial ⟨graph, analysis.domain graph, Assignment.empty⟩ = .ok initial)
    (bounded : analysis.boundary ⟨graph, analysis.domain graph, Assignment.empty⟩ = .ok boundary)
    (sizedInitial : initial.width = (analysis.domain graph).size)
    (sizedBoundary : boundary.width = (analysis.domain graph).size) :
    ∃ session, (analysis.on graph config).Starts session ∧
      session.domain = analysis.domain graph ∧ session.boundary = boundary := by
  have beginsRun : (analysis.client.initial ⟨graph, analysis.domain graph, Assignment.empty⟩).run () =
      (.ok initial, ()) := by
    rw [← begins]
    rfl
  have boundedRun : (analysis.client.boundary
      ⟨graph, analysis.domain graph, Assignment.empty⟩).run () = (.ok boundary, ()) := by
    rw [← bounded]
    rfl
  exact Problem.starts_of_answers sound distinct (analysis.run_collect graph config) beginsRun
    boundedRun sizedInitial sizedBoundary

end Analysis

end Dataflow
