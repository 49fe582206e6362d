import Dataflow.Liveness
import Dataflow.Proofs.Fact.Join
import Dataflow.Proofs.Solver.Convergence
import Mathlib.Data.List.TakeWhile

/-! The operators of live variables as functions of facts. Meet looks into the store: it wants
every value that merges select on other edges, and that is live into a block, to be live past
the block's merges. Transfers of merges only take values away, so this holds of every store that
a run can come to, and the operators never refuse to answer. -/
namespace Dataflow

namespace Liveness

variable {β ι ν : Type} [DecidableEq ν]

/-- The place belongs to a value that the merges of `target` select on the edge from `source`. -/
def Here (graph : FlowGraph β ι ν) (domain : Domain ν) (source target : β) (i : Nat) : Prop :=
  ∃ pair ∈ selected graph target, pair.1 = source ∧ domain.indexOf? pair.2 = some i

def Elsewhere (graph : FlowGraph β ι ν) (domain : Domain ν) (source target : β) (i : Nat) : Prop :=
  (∃ pair ∈ selected graph target, pair.1 ≠ source ∧ domain.indexOf? pair.2 = some i) ∧
    ¬ Here graph domain source target i

/-- The block has an ordinary instruction that a run keeps a fact for. -/
def Passed (graph : FlowGraph β ι ν) (block : β) : Prop :=
  ∃ inst ∈ firstOrdinary? graph block, inst ∈ graph.program

def Contributes (graph : FlowGraph β ι ν) (domain : Domain ν) (source : β) (neighbor : Neighbor β)
    (i : Nat) : Prop :=
  Here graph domain source neighbor.block i ∨
    i ∈ neighbor.fact ∧
      (Passed graph neighbor.block ∨ ¬ Elsewhere graph domain source neighbor.block i)

/-- The instruction reads the value at the place. A merge reads nothing in its block. -/
def Reads (graph : FlowGraph β ι ν) (domain : Domain ν) (inst : ι) (i : Nat) : Prop :=
  graph.isMerge inst = false ∧ ∃ value ∈ graph.operands inst, domain.indexOf? value = some i

def Defines (graph : FlowGraph β ι ν) (domain : Domain ν) (inst : ι) (i : Nat) : Prop :=
  ∃ value ∈ graph.definition inst, domain.indexOf? value = some i

section Decisions

variable [DecidableEq β] [DecidableEq ι] (graph : FlowGraph β ι ν) (domain : Domain ν) (i : Nat)

instance (source target : β) : Decidable (Here graph domain source target i) :=
  inferInstanceAs (Decidable (∃ _ ∈ _, _))

instance (source target : β) : Decidable (Elsewhere graph domain source target i) :=
  inferInstanceAs (Decidable ((∃ _ ∈ _, _) ∧ _))

instance (block : β) : Decidable (Passed graph block) :=
  inferInstanceAs (Decidable (∃ _ ∈ _, _))

instance (source : β) (neighbor : Neighbor β) :
    Decidable (Contributes graph domain source neighbor i) :=
  inferInstanceAs (Decidable (_ ∨ _))

instance (inst : ι) : Decidable (Reads graph domain inst i) := inferInstanceAs (Decidable (_ ∧ _))

instance (inst : ι) : Decidable (Defines graph domain inst i) :=
  inferInstanceAs (Decidable (∃ _ ∈ _, _))

end Decisions

variable [DecidableEq β] [DecidableEq ι]

def operators (graph : FlowGraph β ι ν) (domain : Domain ν) : Operators β ι where
  meet := fun block neighbors => Fact.ofPred domain.size fun i =>
    ∃ neighbor ∈ neighbors, Contributes graph domain block neighbor i
  transfer := fun inst after => Fact.ofPred domain.size fun i =>
    Reads graph domain inst i ∨ i ∈ after ∧ ¬ Defines graph domain inst i

section Operators

variable {graph : FlowGraph β ι ν} {domain : Domain ν}

theorem mem_meet {block : β} {neighbors : List (Neighbor β)} {i : Nat} :
    i ∈ (operators graph domain).meet block neighbors ↔
      i < domain.size ∧ ∃ neighbor ∈ neighbors, Contributes graph domain block neighbor i := by
  rw [operators, Fact.mem_ofPred]

theorem mem_transfer {inst : ι} {after : Fact} {i : Nat} :
    i ∈ (operators graph domain).transfer inst after ↔ i < domain.size ∧
      (Reads graph domain inst i ∨ i ∈ after ∧ ¬ Defines graph domain inst i) := by
  rw [operators, Fact.mem_ofPred]

theorem operators_sized : (operators graph domain).Sized domain.size :=
  ⟨fun _ _ _ _ => Fact.width_ofPred _ _, fun _ _ _ => Fact.width_ofPred _ _⟩

theorem operators_monotone : (operators graph domain).Monotone domain.size where
  meet := by
    intro block left right _ _ _ pairs i member
    obtain ⟨bound, neighbor, found, adds⟩ := mem_meet.mp member
    obtain ⟨larger, foundLarger, same, above⟩ := Operators.exists_larger pairs found
    refine mem_meet.mpr ⟨bound, larger, foundLarger, ?_⟩
    unfold Contributes at adds ⊢
    rw [← same]
    exact adds.imp_right (And.imp_left (above i))
  transfer := by
    intro inst left right _ _ inside i member
    obtain ⟨bound, source⟩ := mem_transfer.mp member
    exact mem_transfer.mpr ⟨bound, source.imp_right (And.imp_left (inside i))⟩

end Operators

section Answers

variable {cx : Context β ι ν ν}

omit [DecidableEq β] [DecidableEq ι] in
private theorem mem_factOf_selected {domain : Domain ν} {pairs : List (β × ν)}
    {keep : β × ν → Bool} {i : Nat} : i ∈ domain.factOf ((pairs.filter keep).map Prod.snd) ↔
      ∃ pair ∈ pairs, keep pair = true ∧ domain.indexOf? pair.2 = some i := by
  rw [Domain.mem_factOf]
  constructor
  · rintro ⟨value, member, place⟩
    obtain ⟨pair, kept, rfl⟩ := List.mem_map.mp member
    obtain ⟨found, keeps⟩ := List.mem_filter.mp kept
    exact ⟨pair, found, keeps, place⟩
  · rintro ⟨pair, found, keeps, place⟩
    exact ⟨pair.2, List.mem_map_of_mem (List.mem_filter.mpr ⟨found, keeps⟩), place⟩

omit [DecidableEq ι] in
theorem mem_selectedHere {source target : β} {i : Nat} :
    i ∈ selectedHere cx source target ↔ Here cx.graph cx.domain source target i := by
  rw [selectedHere, mem_factOf_selected]
  simp [Here]

omit [DecidableEq ι] in
theorem mem_selectedElsewhere {source target : β} {i : Nat} :
    i ∈ selectedElsewhere cx source target ↔
      Elsewhere cx.graph cx.domain source target i := by
  rw [selectedElsewhere, Fact.mem_without, mem_selectedHere, mem_factOf_selected]
  simp [Elsewhere]

abbrev system (graph : FlowGraph β ι ν) (domain : Domain ν) : System β ι ν where
  toOperators := operators graph domain
  direction := .backward
  graph := graph
  width := domain.size
  boundary := domain.emptyFact

variable [Shown β] [Shown ν]

omit [DecidableEq β] [DecidableEq ι] [DecidableEq ν] in
/-- The check passes if what is selected elsewhere and live into the block is live past its
merges. -/
theorem checkElsewhere_eq_ok {target : β} {entry past elsewhere : Fact}
    (inEntry : entry.width = elsewhere.width) (inPast : past.width = elsewhere.width) :
    checkElsewhere cx target entry past elsewhere = .ok () ↔
      ∀ i ∈ elsewhere, i ∈ entry → i ∈ past := by
  unfold checkElsewhere
  rw [Fallible.forM_eq_ok]
  refine forall_congr' fun i => ?_
  rw [Fact.mem_toList]
  refine forall_congr' fun member => ?_
  have bound := Fact.lt_width member
  have here : entry.contains i = .ok (decide (i ∈ entry)) := if_pos (inEntry ▸ bound)
  have there : past.contains i = .ok (decide (i ∈ past)) := if_pos (inPast ▸ bound)
  rw [here, there]
  by_cases live : i ∈ entry
  · by_cases passes : i ∈ past
    · simp only [live, passes, decide_true, forall_const, iff_true]
      rfl
    · simp only [live, passes, decide_true, decide_false, forall_const, iff_false]
      intro checked
      cases checked
  · simp only [live, decide_false, false_implies, iff_true]
    rfl

theorem edgeContribution_of_past {source target : β} {entry past fact : Fact}
    (looked : (firstOrdinary? cx.graph target).bind cx.store.get? = some past) :
    edgeContribution cx source target entry = .ok fact ↔
      checkElsewhere cx target entry past (selectedElsewhere cx source target) = .ok () ∧
      ∃ same : entry.width = (selectedHere cx source target).width,
        entry.join (selectedHere cx source target) same = fact := by
  unfold edgeContribution
  dsimp only
  rw [looked]
  exact Fallible.check_eq_ok.trans (and_congr_right fun _ => Fact.union_eq_ok)

theorem edgeContribution_of_none {source target : β} {entry fact : Fact}
    (looked : (firstOrdinary? cx.graph target).bind cx.store.get? = none) :
    edgeContribution cx source target entry = .ok fact ↔
      ∃ (apart : entry.width = (selectedElsewhere cx source target).width)
        (same : (entry.without (selectedElsewhere cx source target) apart).width =
          (selectedHere cx source target).width),
        (entry.without (selectedElsewhere cx source target) apart).join
          (selectedHere cx source target) same = fact := by
  unfold edgeContribution
  dsimp only
  rw [looked]
  by_cases apart : entry.width = (selectedElsewhere cx source target).width
  · rw [Fact.diff_of_width apart]
    refine Fact.union_eq_ok.trans ?_
    simp [apart]
  · simp only [Fact.diff, Fact.combine, apart, dif_neg, not_false_eq_true, IsEmpty.exists_iff,
      iff_false]
    intro answered
    cases answered

theorem edgeContribution_eq_ok (covers : (system cx.graph cx.domain).Covers cx.store) (source : β)
    {neighbor : Neighbor β} (sized : neighbor.fact.width = cx.domain.size)
    (passes : ∀ inst past, firstOrdinary? cx.graph neighbor.block = some inst →
      cx.store.get? inst = some past → neighbor.fact ⊆ past) :
    ∃ fact, edgeContribution cx source neighbor.block neighbor.fact = .ok fact ∧
      fact.width = cx.domain.size ∧
      ∀ i, i ∈ fact ↔ Contributes cx.graph cx.domain source neighbor i := by
  have here : cx.domain.size = (selectedHere cx source neighbor.block).width :=
    (Domain.width_factOf _ _).symm
  have elsewhere : cx.domain.size = (selectedElsewhere cx source neighbor.block).width :=
    (Domain.width_factOf _ _).symm
  cases looked : (firstOrdinary? cx.graph neighbor.block).bind cx.store.get? with
  | some past =>
    obtain ⟨inst, first, found⟩ := Option.bind_eq_some_iff.mp looked
    have passed : Passed cx.graph neighbor.block :=
      ⟨inst, first, (covers.listed inst).mp (by simp [found])⟩
    have checked : checkElsewhere cx neighbor.block neighbor.fact past
        (selectedElsewhere cx source neighbor.block) = .ok () :=
      (checkElsewhere_eq_ok (sized.trans elsewhere)
        ((covers.sized inst past found).trans elsewhere)).mpr
        fun i _ live => passes inst past first found i live
    refine ⟨neighbor.fact.join (selectedHere cx source neighbor.block) (sized.trans here), ?_,
      sized, ?_⟩
    · exact (edgeContribution_of_past looked).mpr ⟨checked, sized.trans here, rfl⟩
    · intro i
      rw [Fact.mem_join, mem_selectedHere, Contributes]
      simp [passed, or_comm]
  | none =>
    have hidden : ¬ Passed cx.graph neighbor.block := by
      rintro ⟨inst, first, listed⟩
      obtain ⟨fact, found, _⟩ := covers.exists_fact listed
      rw [Option.mem_def.mp first, Option.bind_some, found] at looked
      cases looked
    have kept : (neighbor.fact.without (selectedElsewhere cx source neighbor.block)
        (sized.trans elsewhere)).width = (selectedHere cx source neighbor.block).width :=
      sized.trans here
    refine ⟨Fact.join _ _ kept, ?_, sized, ?_⟩
    · exact (edgeContribution_of_none looked).mpr ⟨sized.trans elsewhere, kept, rfl⟩
    · intro i
      rw [Fact.mem_join, Fact.mem_without, mem_selectedHere, mem_selectedElsewhere, Contributes]
      simp [hidden, or_comm]

theorem meet_eq_joinAll (cx : Context β ι ν ν) (block : β) (neighbors : List (Neighbor β)) :
    Liveness.meet cx block neighbors =
      Fact.joinAll (fun neighbor => edgeContribution cx block neighbor.block neighbor.fact)
        cx.domain.emptyFact neighbors := rfl

/-- Meet answers if each neighbour's fact is within the fact past the neighbour's merges. -/
theorem meet_eq_ok (cx : Context β ι ν ν) (covers : (system cx.graph cx.domain).Covers cx.store)
    {block : β} {neighbors : List (Neighbor β)}
    (sized : ∀ neighbor ∈ neighbors, neighbor.fact.width = cx.domain.size)
    (passes : ∀ neighbor ∈ neighbors, ∀ inst past,
      firstOrdinary? cx.graph neighbor.block = some inst → cx.store.get? inst = some past →
      neighbor.fact ⊆ past) :
    Liveness.meet cx block neighbors =
      .ok ((operators cx.graph cx.domain).meet block neighbors) := by
  have contributes := fun neighbor listed =>
    edgeContribution_eq_ok covers block (sized neighbor listed) (passes neighbor listed)
  obtain ⟨result, run⟩ : ∃ result, Liveness.meet cx block neighbors = .ok result := by
    rw [meet_eq_joinAll]
    refine Fact.exists_joinAll_iff.mpr fun neighbor listed => ?_
    obtain ⟨fact, answered, width, _⟩ := contributes neighbor listed
    exact ⟨fact, answered, width⟩
  obtain ⟨width, members⟩ := Fact.mem_joinAll (meet_eq_joinAll cx block neighbors ▸ run)
  have same : result = (operators cx.graph cx.domain).meet block neighbors := by
    refine Fact.eq_ofPred width fun i => (members i).trans ?_
    constructor
    · rintro (nothing | ⟨neighbor, listed, given, answered, member⟩)
      · exact absurd nothing (Fact.not_mem_empty _ i)
      · obtain ⟨fact, answeredToo, _, adds⟩ := contributes neighbor listed
        cases answered.symm.trans answeredToo
        exact ⟨neighbor, listed, (adds i).mp member⟩
    · rintro ⟨neighbor, listed, contributed⟩
      obtain ⟨fact, answered, _, adds⟩ := contributes neighbor listed
      exact Or.inr ⟨neighbor, listed, fact, answered, (adds i).mpr contributed⟩
  exact same ▸ run

omit [Shown β] [Shown ν] in
theorem transfer_eq_ok (cx : Context β ι ν ν) {inst : ι} {after : Fact}
    (sized : after.width = cx.domain.size) :
    Liveness.transfer cx inst after = .ok ((operators cx.graph cx.domain).transfer inst after) := by
  have defined : ∀ i, i ∈ cx.definitionIndex inst ↔ Defines cx.graph cx.domain inst i := by
    intro i
    simp [Context.definitionIndex, Defines, Option.mem_toList, Option.bind_eq_some_iff]
  have read : ∀ i, i ∈ cx.operandIndices inst ↔
      ∃ value ∈ cx.graph.operands inst, cx.domain.indexOf? value = some i := by
    intro i
    simp [Context.operandIndices]
  have inside : ∀ i ∈ cx.definitionIndex inst, i < after.width := by
    intro i member
    obtain ⟨value, _, place⟩ := (defined i).mp member
    exact sized ▸ Domain.lt_size_of_indexOf? place
  obtain ⟨killed, erased, width, members⟩ := Fact.eraseAll_of_lt inside
  unfold Liveness.transfer
  rw [erased]
  cases merge : cx.graph.isMerge inst with
  | true =>
    have same : killed = (operators cx.graph cx.domain).transfer inst after :=
      Fact.eq_ofPred (width.trans sized) (fun i => by simp [members, defined, Reads, merge])
    rw [← same]
    rfl
  | false =>
    have insideKilled : ∀ i ∈ cx.operandIndices inst, i < killed.width := by
      intro i member
      obtain ⟨value, _, place⟩ := (read i).mp member
      exact (width.trans sized) ▸ Domain.lt_size_of_indexOf? place
    obtain ⟨result, inserted, widthResult, grown⟩ := Fact.insertAll_of_lt insideKilled
    have same : result = (operators cx.graph cx.domain).transfer inst after :=
      Fact.eq_ofPred (widthResult.trans (width.trans sized))
        (fun i => by simp [grown, members, defined, read, Reads, merge, or_comm])
    rw [← same]
    exact inserted

end Answers

section Runs

variable {graph : FlowGraph β ι ν} {domain : Domain ν}

/-- What is live into a block is live past its merges. -/
def Passing (graph : FlowGraph β ι ν) (store : Store ι) : Prop :=
  ∀ block ∈ graph.blocks, ∀ first ordinary entry past,
    (graph.instructions block).head? = some first → firstOrdinary? graph block = some ordinary →
    store.get? first = some entry → store.get? ordinary = some past → entry ⊆ past

theorem transfer_merge_subset {inst : ι} (merge : graph.isMerge inst = true) (fact : Fact) :
    (operators graph domain).transfer inst fact ⊆ fact := by
  intro i member
  rcases (mem_transfer.mp member).2 with ⟨ordinary, _⟩ | ⟨kept, _⟩
  · rw [merge] at ordinary
    cases ordinary
  · exact kept

theorem thread_merges_subset {fact : Fact} {insts : List ι}
    (merges : ∀ inst ∈ insts, graph.isMerge inst = true) :
    ∀ output ∈ (operators graph domain).thread fact insts, output.2 ⊆ fact := by
  refine Operators.thread_forall _ (fun _ other => other ⊆ fact) ?_ ?_
  · rintro inst rest rfl
    exact transfer_merge_subset (merges inst (by simp)) fact
  · rintro before previous inst after other rfl inside
    exact Fact.subset_trans (transfer_merge_subset (merges inst (by simp)) other) inside

/-- Merges are worked through last, on what comes out of the first ordinary instruction. -/
theorem exists_output_past (store : Store ι) {block : β} {ordinary : ι}
    (found : firstOrdinary? graph block = some ordinary) :
    ∃ past, (ordinary, past) ∈ (system graph domain).outputs store block ∧
      ∀ first, (graph.instructions block).head? = some first →
        ∃ entry, (first, entry) ∈ (system graph domain).outputs store block ∧ entry ⊆ past := by
  let ops := operators graph domain
  let input := ((system graph domain).inflow store block).fact
  obtain ⟨rest, tail⟩ := List.head?_eq_some_iff.mp found
  have split : graph.instructions block = merges graph block ++ ordinary :: rest := by
    rw [← tail, merges, List.takeWhile_append_dropWhile]
  let past := ops.transfer ordinary (ops.through input rest.reverse)
  have outputs : (system graph domain).outputs store block = ops.thread input rest.reverse ++
      (ordinary, past) :: ops.thread past (merges graph block).reverse := by
    have order : (system graph domain).order block =
        rest.reverse ++ ordinary :: (merges graph block).reverse := by
      simp [System.order, Direction.instructionOrder, split]
    rw [System.outputs, order, Operators.thread_append]
    rfl
  have given : (ordinary, past) ∈ (system graph domain).outputs store block := by simp [outputs]
  refine ⟨past, given, fun first head => ?_⟩
  rw [split] at head
  rcases leading : merges graph block with _ | ⟨merge, others⟩
  · rw [leading] at head
    cases head
    exact ⟨past, given, Fact.subset_refl past⟩
  · have member : first ∈ (merges graph block).reverse := by
      rw [leading] at head ⊢
      cases head
      simp
    rw [← ops.map_fst_thread past (merges graph block).reverse] at member
    obtain ⟨output, passed, rfl⟩ := List.mem_map.mp member
    refine ⟨output.2, by simp [outputs, passed], thread_merges_subset ?_ output passed⟩
    intro inst among
    exact List.mem_takeWhile_imp (List.mem_reverse.mp among)

/-- Working through a block keeps its entry within what is past its merges. -/
theorem Passing.settle {store : Store ι} (passing : Passing graph store)
    (distinct : graph.program.Nodup) {block : β} (listed : block ∈ graph.blocks) :
    Passing graph ((system graph domain).settle store block) := by
  intro other listedOther first ordinary entry past head found storedEntry storedPast
  by_cases same : other = block
  · subst same
    obtain ⟨_, givenPast, enters⟩ := exists_output_past store found
    obtain ⟨_, givenEntry, inside⟩ := enters first head
    rw [System.get?_settle_of_output distinct listed givenPast] at storedPast
    rw [System.get?_settle_of_output distinct listed givenEntry] at storedEntry
    cases storedPast
    cases storedEntry
    exact inside
  · have apart : ∀ inst ∈ graph.instructions other, inst ∉ (system graph domain).order block := by
      intro inst member inside
      exact same (FlowGraph.eq_of_mem_instructions distinct listedOther listed member
        ((system graph domain).mem_order.mp inside))
    have headMember := List.mem_of_head? head
    have ordinaryMember : ordinary ∈ graph.instructions other :=
      (List.dropWhile_sublist _).subset (List.mem_of_head? found)
    rw [System.get?_settle_of_not_mem (apart first headMember)] at storedEntry
    rw [System.get?_settle_of_not_mem (apart ordinary ordinaryMember)] at storedPast
    exact passing other listedOther first ordinary entry past head found storedEntry storedPast

theorem passing_of_fresh {store : Store ι} (fresh : (system graph domain).Fresh .ascending store) :
    Passing graph store := by
  intro _ _ first _ entry _ _ _ stored _ i member
  exact absurd member (fresh.not_mem stored i)

/-- What flows into a block along an edge is live past the merges at the edge's end. -/
theorem Passing.arriving {store : Store ι} (passing : Passing graph store) (domain : Domain ν)
    {block : β} (closed : ∀ target ∈ graph.successors block,
      target ∈ graph.blocks ∨ graph.instructions target = []) {neighbor : Neighbor β}
    (arrives : neighbor ∈ (system graph domain).arriving store block) {ordinary : ι} {past : Fact}
    (found : firstOrdinary? graph neighbor.block = some ordinary)
    (storedPast : store.get? ordinary = some past) : neighbor.fact ⊆ past := by
  obtain ⟨successor, first, exit, stored⟩ := (system graph domain).mem_arriving.mp arrives
  have head := (Direction.exit?_backward graph neighbor.block).symm.trans exit
  rcases closed neighbor.block successor with inside | empty
  · exact passing neighbor.block inside first ordinary neighbor.fact past head found stored
      storedPast
  · simp [empty] at head

variable [Shown β] [Shown ν]

/-- On a graph whose edges lead to blocks of it, or nowhere, the operators answer in every
state of a run. -/
theorem follows (domain : Domain ν) (distinct : graph.program.Nodup)
    (closed : ∀ block ∈ graph.blocks, ∀ target ∈ graph.successors block,
      target ∈ graph.blocks ∨ graph.instructions target = []) (config : Config) :
    (liveVariables.on graph config).Follows domain domain.emptyFact (operators graph domain)
      fun store => (system graph domain).Covers store ∧ Passing graph store where
  sized := ⟨operators_sized, rfl⟩
  covers := fun _ good => good.1
  settle := fun _ _ good listed =>
    ⟨good.1.settle ⟨operators_sized, rfl⟩ listed, good.2.settle distinct listed⟩
  meet := by
    rintro store block memory ⟨covers, passing⟩ listed _ _
    refine meet_eq_ok ⟨graph, domain, store⟩ covers covers.arriving_sized ?_
    intro neighbor arrives ordinary past found storedPast
    exact passing.arriving domain (closed block listed) arrives found storedPast
  transfer := fun store _ _ _ _ _ width => transfer_eq_ok ⟨graph, domain, store⟩ width

theorem exists_session {config : Config} (sound : (liveVariables.on graph config).defect? = none)
    (distinct : graph.program.Nodup) :
    ∃ session, (liveVariables.on graph config).Starts session ∧
      session.boundary = session.domain.emptyFact := by
  obtain ⟨session, started, domain, boundary⟩ :=
    Analysis.starts sound distinct rfl rfl (Domain.width_emptyFact _) (Domain.width_emptyFact _)
  exact ⟨session, started, by rw [boundary, domain]⟩

end Runs

end Liveness

end Dataflow
