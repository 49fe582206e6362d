import Dataflow.Proofs.Fact.Refinement
import Dataflow.Proofs.Solver.Totality
import Mathlib.Data.Finset.Option

/-! The operators of the analyses take fixed positions away and put fixed positions in. A transfer
does so once; meet does so on every edge and joins what comes over the edges. Which positions these
are is settled by the graph and the domain, and for live variables also by which instructions have
facts, never by what the facts are, so operators answer nested facts with nested facts. -/
namespace Dataflow

/-- Positions that are taken away, and positions that are put in afterwards. -/
structure Exchange where
  drop : Finset Nat
  add : Finset Nat

theorem Fact.members_subset_members {left right : Fact} :
    left.members ⊆ right.members ↔ left ⊆ right := by
  simp only [Finset.subset_iff, mem_members]
  exact Iff.rfl

/-- The members of a fact, from its width and a test for them. -/
theorem Fact.members_eq_filter {fact : Fact} {width : Nat} {holds : Nat → Prop}
    [DecidablePred holds] (sized : fact.width = width) (tests : ∀ i, i ∈ fact ↔ holds i) :
    fact.members = (Finset.range width).filter holds := by
  ext i
  rw [mem_members, Finset.mem_filter, Finset.mem_range, ← tests]
  exact ⟨fun member => ⟨sized ▸ lt_width member, member⟩, And.right⟩

namespace Exchange

variable {β : Type}

def apply (exchange : Exchange) (set : Finset Nat) : Finset Nat :=
  set \ exchange.drop ∪ exchange.add

theorem mem_apply {exchange : Exchange} {set : Finset Nat} {i : Nat} :
    i ∈ exchange.apply set ↔ (i ∈ set ∧ i ∉ exchange.drop) ∨ i ∈ exchange.add := by
  simp [apply]

theorem apply_subset_apply (exchange : Exchange) {lower upper : Finset Nat}
    (inside : lower ⊆ upper) : exchange.apply lower ⊆ exchange.apply upper :=
  Finset.union_subset_union_left (Finset.sdiff_subset_sdiff inside subset_rfl)

def collect (exchange : β → Exchange) : List (Neighbor β) → Finset Nat
  | [] => ∅
  | neighbor :: rest =>
    (exchange neighbor.block).apply neighbor.fact.members ∪ collect exchange rest

theorem mem_collect {exchange : β → Exchange} {neighbors : List (Neighbor β)} {i : Nat} :
    i ∈ collect exchange neighbors ↔
      ∃ neighbor ∈ neighbors, i ∈ (exchange neighbor.block).apply neighbor.fact.members := by
  induction neighbors with
  | nil => simp [collect]
  | cons neighbor rest ih => simp [collect, ih]

theorem collect_subset_collect (exchange : β → Exchange) {lower upper : List (Neighbor β)}
    (nested : List.Forall₂ (fun l u => l.block = u.block ∧ l.fact ⊆ u.fact) lower upper) :
    collect exchange lower ⊆ collect exchange upper := by
  intro i member
  obtain ⟨neighbor, found, comes⟩ := mem_collect.mp member
  obtain ⟨larger, foundLarger, same, above⟩ := Operators.exists_larger nested found
  refine mem_collect.mpr ⟨larger, foundLarger, ?_⟩
  rw [← same]
  exact apply_subset_apply _ (Fact.members_subset_members.mpr above) comes

end Exchange

def Store.has {ι : Type} [DecidableEq ι] (store : Store ι) (inst : ι) : Bool :=
  (store.get? inst).isSome

namespace Analysis

variable {β ι ν ε : Type} [DecidableEq ι]

/-- Transfers answer every fact of the domain's width with an exchange of their own, and whenever
meet answers, it has joined one exchange for each edge. -/
structure Exchanges (analysis : Analysis β ι ν ε) (graph : FlowGraph β ι ν) (domain : Domain ε) :
    Prop where
  transfer : ∃ exchange : ι → Exchange, ∀ store inst input, input.width = domain.size →
    ∃ output, analysis.transfer ⟨graph, domain, store⟩ inst input = .ok output ∧
      output.width = domain.size ∧ output.members = (exchange inst).apply input.members
  meet : ∃ exchange : (ι → Bool) → β → β → Exchange, ∀ (store : Store ι) block neighbors output,
    analysis.meet ⟨graph, domain, store⟩ block neighbors = .ok output →
      output.width = domain.size ∧
      output.members = Exchange.collect (exchange store.has block) neighbors

structure Nests (analysis : Analysis β ι ν ε) (graph : FlowGraph β ι ν) (domain : Domain ε) :
    Prop where
  transfer : ∀ lower upper inst input larger output result, input.width = domain.size →
    larger.width = domain.size → input ⊆ larger →
    analysis.transfer ⟨graph, domain, lower⟩ inst input = .ok output →
    analysis.transfer ⟨graph, domain, upper⟩ inst larger = .ok result → output ⊆ result
  meet : ∀ (lower upper : Store ι) block neighbors larger output result,
    lower.has = upper.has →
    List.Forall₂ (fun l u => l.block = u.block ∧ l.fact ⊆ u.fact) neighbors larger →
    analysis.meet ⟨graph, domain, lower⟩ block neighbors = .ok output →
    analysis.meet ⟨graph, domain, upper⟩ block larger = .ok result → output ⊆ result

variable {analysis : Analysis β ι ν ε} {graph : FlowGraph β ι ν} {domain : Domain ε}

theorem Exchanges.nests (exchanges : analysis.Exchanges graph domain) :
    analysis.Nests graph domain where
  transfer := by
    intro lower upper inst input larger output result sized sizedLarger inside answered
      answeredLarger
    obtain ⟨exchange, answers⟩ := exchanges.transfer
    obtain ⟨_, first, _, members⟩ := answers lower inst input sized
    obtain ⟨_, second, _, membersLarger⟩ := answers upper inst larger sizedLarger
    cases answered.symm.trans first
    cases answeredLarger.symm.trans second
    rw [← Fact.members_subset_members, members, membersLarger]
    exact (exchange inst).apply_subset_apply (Fact.members_subset_members.mpr inside)
  meet := by
    intro lower upper block neighbors larger output result same nested answered answeredLarger
    obtain ⟨exchange, answers⟩ := exchanges.meet
    obtain ⟨_, members⟩ := answers lower block neighbors output answered
    obtain ⟨_, membersLarger⟩ := answers upper block larger result answeredLarger
    rw [← Fact.members_subset_members, members, membersLarger, same]
    exact Exchange.collect_subset_collect _ nested

end Analysis

/-- Joining what exchanges make of each neighbour's fact. -/
theorem Exchange.members_joinAll {β : Type} {contribution : Neighbor β → Except Fault Fact}
    {exchange : β → Exchange} (each : ∀ neighbor fact, contribution neighbor = .ok fact →
      fact.members = (exchange neighbor.block).apply neighbor.fact.members)
    {width : Nat} {neighbors : List (Neighbor β)} {output : Fact}
    (run : Fact.joinAll contribution (Fact.empty width) neighbors = .ok output) :
    output.width = width ∧ output.members = collect exchange neighbors := by
  have contributes := Fact.exists_joinAll_iff.mp ⟨output, run⟩
  obtain ⟨sized, members⟩ := Fact.mem_joinAll run
  refine ⟨sized, ?_⟩
  ext i
  rw [Fact.mem_members, members, mem_collect]
  constructor
  · rintro (nothing | ⟨neighbor, listed, given, answered, member⟩)
    · exact absurd nothing (Fact.not_mem_empty width i)
    · refine ⟨neighbor, listed, ?_⟩
      rw [← each neighbor given answered]
      exact Fact.mem_members.mpr member
  · rintro ⟨neighbor, listed, member⟩
    obtain ⟨given, answered, _⟩ := contributes neighbor listed
    rw [← each neighbor given answered] at member
    exact Or.inr ⟨neighbor, listed, given, answered, Fact.mem_members.mp member⟩

namespace Liveness

variable {β ι ν : Type} [DecidableEq β] [DecidableEq ι] [DecidableEq ν]

def exchange (graph : FlowGraph β ι ν) (domain : Domain ν) (inst : ι) : Exchange where
  drop := (Finset.range domain.size).filter (Defines graph domain inst)
  add := (Finset.range domain.size).filter (Reads graph domain inst)

/-- An edge puts in what is selected on it. It takes away what is selected elsewhere, unless there
is a fact past the merges to tell. -/
def edgeExchange (graph : FlowGraph β ι ν) (domain : Domain ν) (has : ι → Bool)
    (source target : β) : Exchange where
  drop := if (firstOrdinary? graph target).any has then ∅
    else (Finset.range domain.size).filter (Elsewhere graph domain source target)
  add := (Finset.range domain.size).filter (Here graph domain source target)

omit [DecidableEq ι] in
theorem members_selectedHere (cx : Context β ι ν ν) (source target : β) :
    (selectedHere cx source target).members =
      (Finset.range cx.domain.size).filter (Here cx.graph cx.domain source target) :=
  Fact.members_eq_filter (Domain.width_factOf _ _) fun _ => mem_selectedHere

omit [DecidableEq ι] in
theorem members_selectedElsewhere (cx : Context β ι ν ν) (source target : β) :
    (selectedElsewhere cx source target).members =
      (Finset.range cx.domain.size).filter (Elsewhere cx.graph cx.domain source target) :=
  Fact.members_eq_filter (Domain.width_factOf _ _) fun _ => mem_selectedElsewhere

variable [Shown β] [Shown ν] {cx : Context β ι ν ν}

omit [DecidableEq β] [DecidableEq ν] [Shown β] [Shown ν] in
theorem any_has (cx : Context β ι ν ν) (target : β) :
    (firstOrdinary? cx.graph target).any cx.store.has =
      ((firstOrdinary? cx.graph target).bind cx.store.get?).isSome := by
  cases firstOrdinary? cx.graph target <;> rfl

/-- What comes over an edge, if anything does. -/
theorem of_edgeContribution {source target : β} {entry fact : Fact}
    (answered : edgeContribution cx source target entry = .ok fact) :
    fact.width = cx.domain.size ∧ fact.members =
      (edgeExchange cx.graph cx.domain cx.store.has source target).apply entry.members := by
  have here : (selectedHere cx source target).width = cx.domain.size := Domain.width_factOf _ _
  rw [Exchange.apply, edgeExchange, any_has]
  cases looked : (firstOrdinary? cx.graph target).bind cx.store.get? with
  | some past =>
    obtain ⟨_, same, rfl⟩ := (edgeContribution_of_past looked).mp answered
    refine ⟨same.trans here, ?_⟩
    rw [Fact.members_join, members_selectedHere, Option.isSome_some, if_pos rfl,
      Finset.sdiff_empty]
  | none =>
    obtain ⟨apart, same, rfl⟩ := (edgeContribution_of_none looked).mp answered
    refine ⟨same.trans here, ?_⟩
    rw [Fact.members_join, Fact.members_without, members_selectedHere, members_selectedElsewhere,
      Option.isSome_none, if_neg Bool.false_ne_true]

/-- An edge answers facts of the right width that are live past the merges where they have to be. -/
theorem exists_edgeContribution_iff
    (sized : ∀ inst fact, cx.store.get? inst = some fact → fact.width = cx.domain.size)
    {source : β} {neighbor : Neighbor β} :
    (∃ fact, edgeContribution cx source neighbor.block neighbor.fact = .ok fact) ↔
      neighbor.fact.width = cx.domain.size ∧ LivePast cx source neighbor := by
  have here : (selectedHere cx source neighbor.block).width = cx.domain.size :=
    Domain.width_factOf _ _
  have elsewhere : (selectedElsewhere cx source neighbor.block).width = cx.domain.size :=
    Domain.width_factOf _ _
  cases looked : (firstOrdinary? cx.graph neighbor.block).bind cx.store.get? with
  | some past =>
    obtain ⟨inst, first, stored⟩ := Option.bind_eq_some_iff.mp looked
    have live : LivePast cx source neighbor ↔
        ∀ i ∈ selectedElsewhere cx source neighbor.block, i ∈ neighbor.fact → i ∈ past := by
      refine ⟨fun live => live inst past first stored, fun live other fact found kept => ?_⟩
      cases first.symm.trans found
      cases stored.symm.trans kept
      exact live
    rw [live]
    constructor
    · rintro ⟨fact, answered⟩
      obtain ⟨checked, same, _⟩ := (edgeContribution_of_past looked).mp answered
      have width := same.trans here
      exact ⟨width, (checkElsewhere_eq_ok (width.trans elsewhere.symm)
        ((sized inst past stored).trans elsewhere.symm)).mp checked⟩
    · rintro ⟨width, passes⟩
      refine ⟨_, (edgeContribution_of_past looked).mpr ⟨?_, width.trans here.symm, rfl⟩⟩
      exact (checkElsewhere_eq_ok (width.trans elsewhere.symm)
        ((sized inst past stored).trans elsewhere.symm)).mpr passes
  | none =>
    have live : LivePast cx source neighbor := by
      intro inst past first stored
      rw [first, Option.bind_some, stored] at looked
      cases looked
    constructor
    · rintro ⟨fact, answered⟩
      obtain ⟨_, same, _⟩ := (edgeContribution_of_none looked).mp answered
      exact ⟨same.trans here, live⟩
    · rintro ⟨width, _⟩
      exact ⟨_, (edgeContribution_of_none looked).mpr
        ⟨width.trans elsewhere.symm, width.trans here.symm, rfl⟩⟩

theorem exists_meet_iff
    (sized : ∀ inst fact, cx.store.get? inst = some fact → fact.width = cx.domain.size)
    {block : β} {neighbors : List (Neighbor β)} :
    (∃ fact, Liveness.meet cx block neighbors = .ok fact) ↔
      ∀ neighbor ∈ neighbors,
        neighbor.fact.width = cx.domain.size ∧ LivePast cx block neighbor := by
  simp only [meet_eq_joinAll, Fact.exists_joinAll_iff, ← exists_edgeContribution_iff sized]
  refine forall_congr' fun neighbor => forall_congr' fun _ => exists_congr fun fact => ?_
  exact and_iff_left_of_imp fun answered => (of_edgeContribution answered).1

theorem exchanges (graph : FlowGraph β ι ν) (domain : Domain ν) :
    liveVariables.Exchanges graph domain where
  transfer := by
    refine ⟨exchange graph domain, fun store inst input width => ?_⟩
    refine ⟨_, transfer_eq_ok ⟨graph, domain, store⟩ width, operators_sized.transfer _ _ width, ?_⟩
    ext i
    rw [Fact.mem_members, mem_transfer, Exchange.mem_apply, Fact.mem_members]
    simp only [exchange, Finset.mem_filter, Finset.mem_range]
    constructor
    · rintro ⟨bound, reads | ⟨member, kept⟩⟩
      · exact Or.inr ⟨bound, reads⟩
      · exact Or.inl ⟨member, fun defined => kept defined.2⟩
    · rintro (⟨member, kept⟩ | ⟨bound, reads⟩)
      · have bound := width ▸ Fact.lt_width member
        exact ⟨bound, Or.inr ⟨member, fun defines => kept ⟨bound, defines⟩⟩⟩
      · exact ⟨bound, Or.inl reads⟩
  meet := by
    refine ⟨edgeExchange graph domain, fun store block neighbors output answered => ?_⟩
    exact Exchange.members_joinAll (fun _ _ given => (of_edgeContribution given).2) answered

end Liveness

namespace Reaching

variable {β ι ν : Type} [DecidableEq ι] [DecidableEq ν]

def exchange (graph : FlowGraph β ι ν) (domain : Domain ν) (inst : ι) : Exchange where
  drop := ∅
  add := ((graph.definition inst).bind domain.indexOf?).toFinset

omit [DecidableEq ι] in
theorem meet_eq_joinAll (cx : Context β ι ν ν) (block : β) (neighbors : List (Neighbor β)) :
    reachingDefinitions.meet cx block neighbors =
      Fact.joinAll (fun neighbor => .ok neighbor.fact) cx.domain.emptyFact neighbors :=
  List.foldlM_map

omit [DecidableEq ι] in
theorem exists_meet_iff {cx : Context β ι ν ν} {block : β} {neighbors : List (Neighbor β)} :
    (∃ fact, reachingDefinitions.meet cx block neighbors = .ok fact) ↔
      ∀ neighbor ∈ neighbors, neighbor.fact.width = cx.domain.size := by
  simp [meet_eq_joinAll, Fact.exists_joinAll_iff]

theorem exchanges (graph : FlowGraph β ι ν) (domain : Domain ν) :
    reachingDefinitions.Exchanges graph domain where
  transfer := by
    refine ⟨exchange graph domain, fun store inst input width => ?_⟩
    refine ⟨_, transfer_eq_ok ⟨graph, domain, store⟩ width, operators_sized.transfer _ _ width, ?_⟩
    ext i
    have place : i ∈ (exchange graph domain inst).add ↔
        ∃ value, graph.definition inst = some value ∧ domain.indexOf? value = some i := by
      simp [exchange, Option.bind_eq_some_iff]
    rw [Fact.mem_members, mem_transfer, Exchange.mem_apply, Fact.mem_members, place]
    constructor
    · rintro ⟨_, member | defined⟩
      · exact Or.inl ⟨member, Finset.notMem_empty i⟩
      · exact Or.inr defined
    · rintro (⟨member, _⟩ | ⟨value, defined, found⟩)
      · exact ⟨width ▸ Fact.lt_width member, Or.inl member⟩
      · exact ⟨Domain.lt_size_of_indexOf? found, Or.inr ⟨value, defined, found⟩⟩
  meet := by
    refine ⟨fun _ _ _ => ⟨∅, ∅⟩, fun store block neighbors output answered => ?_⟩
    rw [meet_eq_joinAll] at answered
    refine Exchange.members_joinAll (fun neighbor fact given => ?_) answered
    cases given
    simp [Exchange.apply]

end Reaching

/-- The analyses take away and put in fixed positions, at instructions and on edges, and so keep
nested facts nested. A meet answers exactly if the facts have the domain's width and, for live
variables, what is live into a neighbour only through other edges is live past its merges. -/
theorem analyses_exchange_positions {β ι ν : Type} [DecidableEq β] [DecidableEq ι] [DecidableEq ν]
    [Shown β] [Shown ν] (graph : FlowGraph β ι ν) (domain : Domain ν) :
    liveVariables.Exchanges graph domain ∧ liveVariables.Nests graph domain ∧
    reachingDefinitions.Exchanges graph domain ∧ reachingDefinitions.Nests graph domain ∧
    ∀ (store : Store ι), (∀ inst fact, store.get? inst = some fact → fact.width = domain.size) →
      ∀ block neighbors,
        ((∃ fact, liveVariables.meet ⟨graph, domain, store⟩ block neighbors = .ok fact) ↔
          ∀ neighbor ∈ neighbors, neighbor.fact.width = domain.size ∧
            Liveness.LivePast ⟨graph, domain, store⟩ block neighbor) ∧
        ((∃ fact, reachingDefinitions.meet ⟨graph, domain, store⟩ block neighbors = .ok fact) ↔
          ∀ neighbor ∈ neighbors, neighbor.fact.width = domain.size) := by
  refine ⟨Liveness.exchanges graph domain, (Liveness.exchanges graph domain).nests,
    Reaching.exchanges graph domain, (Reaching.exchanges graph domain).nests, ?_⟩
  intro store sized block neighbors
  exact ⟨Liveness.exists_meet_iff sized, Reaching.exists_meet_iff⟩

end Dataflow
