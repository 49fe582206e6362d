import Dataflow.Proofs.Ssa.Function

/-! Which drafts can be finished, and what the edges of the finished function are. Nothing is
refused but a block that does not end and a phi that disagrees with the edges into its block. An
edge is there once, however often a terminator names its target. -/
namespace Dataflow.Ssa

theorem Opcode.successors_eq_eraseDups {opcode : Opcode} (terminator : opcode.isTerminator = true) :
    opcode.successors = opcode.mentions.eraseDups := by
  cases opcode with
  | branch target => rfl
  | branchIf condition onTrue onFalse =>
    by_cases same : onTrue = onFalse
    · simp [successors, mentions, same, List.eraseDups_cons]
    · have other : onFalse ≠ onTrue := fun equal => same equal.symm
      simp [successors, mentions, same, other, List.eraseDups_cons]
  | ret value => rfl
  | _ => cases terminator

theorem Opcode.successors_nodup (opcode : Opcode) : opcode.successors.Nodup := by
  cases opcode with
  | branchIf condition onTrue onFalse =>
    by_cases same : onTrue = onFalse <;> simp [successors, same]
  | _ => simp [successors]

namespace Draft

def ending? (draft : Draft) (block : Block) : Option Opcode :=
  (draft.placed block).getLast?.bind draft.opcode?

def Ends (draft : Draft) (block : Block) : Prop :=
  ∃ opcode ∈ draft.ending? block, opcode.isTerminator = true

def Leads (draft : Draft) (source target : Block) : Prop :=
  ∃ opcode ∈ draft.ending? source, opcode.isTerminator = true ∧ target ∈ opcode.mentions

structure Complete (draft : Draft) : Prop where
  ends : ∀ block : Block, block.index < draft.blocks.size → draft.Ends block
  selects : ∀ inst instruction incoming, draft.instruction? inst = some instruction →
    instruction.opcode = .phi incoming → (incoming.map Prod.fst).Nodup ∧
      ∀ source, source ∈ incoming.map Prod.fst ↔ draft.Leads source instruction.block

theorem targets_of_ending {draft : Draft} {block : Block} {opcode : Opcode}
    (ended : opcode ∈ draft.ending? block) (terminator : opcode.isTerminator = true) :
    draft.targets block = .ok opcode.successors := by
  obtain ⟨last, placed, found⟩ := Option.bind_eq_some_iff.mp ended
  exact targets_eq_ok.mpr ⟨last, opcode, placed, found, terminator, rfl⟩

theorem exists_ending {draft : Draft} {block : Block} {targets : List Block}
    (ends : draft.targets block = .ok targets) :
    ∃ opcode ∈ draft.ending? block, opcode.isTerminator = true ∧ opcode.successors = targets := by
  obtain ⟨last, opcode, placed, found, terminator, leads⟩ := targets_eq_ok.mp ends
  exact ⟨opcode, Option.bind_eq_some_iff.mpr ⟨last, placed, found⟩, terminator, leads⟩

theorem exists_targets_iff_ends {draft : Draft} {block : Block} :
    (∃ targets, draft.targets block = .ok targets) ↔ draft.Ends block := by
  constructor
  · rintro ⟨targets, ends⟩
    obtain ⟨opcode, ended, terminator, _⟩ := exists_ending ends
    exact ⟨opcode, ended, terminator⟩
  · rintro ⟨opcode, ended, terminator⟩
    exact ⟨_, targets_of_ending ended terminator⟩

/-- A block without an end has no exits and leads nowhere. -/
theorem mem_exits_iff_leads {draft : Draft} {source target : Block} :
    target ∈ draft.exits source ↔ draft.Leads source target := by
  constructor
  · intro member
    cases ends : draft.targets source with
    | error flaw => simp [exits, ends, Except.toOption] at member
    | ok targets =>
      obtain ⟨opcode, ended, terminator, rfl⟩ := exists_ending ends
      rw [exits_eq ends] at member
      exact ⟨opcode, ended, terminator, opcode.mem_mentions_of_successors member⟩
  · rintro ⟨opcode, ended, terminator, member⟩
    rw [exits_eq (targets_of_ending ended terminator), Opcode.successors_eq_eraseDups terminator]
    exact List.mem_eraseDups.mpr member

theorem Leads.known {draft : Draft} {source target : Block} (leads : draft.Leads source target) :
    source ∈ draft.handles := by
  obtain ⟨opcode, ended, _⟩ := leads
  obtain ⟨last, placed, _⟩ := Option.bind_eq_some_iff.mp ended
  exact mem_handles_of_placed (List.mem_of_getLast? placed)

theorem mem_edgeList_iff_leads {draft : Draft} {source target : Block} :
    (source, target) ∈ draft.edgeList ↔ draft.Leads source target := by
  rw [mem_edgeList, mem_exits_iff_leads]
  exact ⟨And.right, fun leads => ⟨leads.known, leads⟩⟩

theorem exits_nodup (draft : Draft) (block : Block) : (draft.exits block).Nodup := by
  cases ends : draft.targets block with
  | error flaw => simp [exits, ends, Except.toOption]
  | ok targets =>
    obtain ⟨opcode, _, _, rfl⟩ := exists_ending ends
    rw [exits_eq ends]
    exact opcode.successors_nodup

theorem handles_pairwise (draft : Draft) :
    draft.handles.Pairwise fun earlier later => earlier.index < later.index :=
  List.pairwise_map.mpr List.pairwise_lt_range

private theorem flatMap_ite {α γ : Type} (items : List α) (keep : α → Prop) [DecidablePred keep]
    (row : α → List γ) : (items.flatMap fun item => if keep item then row item else []) =
      (items.filter fun item => keep item).flatMap row := by
  induction items with
  | nil => rfl
  | cons item rest ih => by_cases kept : keep item <;> simp [kept, ih]

private theorem filter_eq_of_nodup {blocks : List Block} (distinct : blocks.Nodup) (block : Block) :
    (blocks.filter fun other => other = block) = if block ∈ blocks then [block] else [] := by
  have counted : (blocks.filter fun other => other = block) = List.replicate (blocks.count block) block :=
    List.filter_beq block
  rw [counted, distinct.count]
  split <;> rfl

/-- The edges that leave a block go where its end does. -/
theorem leaving_edgeList {draft : Draft} {block : Block} (known : block ∈ draft.handles) :
    (draft.edgeList.filter fun edge => edge.1 = block).map Prod.snd = draft.exits block := by
  have row (source : Block) : (((draft.exits source).map fun target => (source, target)).filter
      fun edge => edge.1 = block).map Prod.snd = if source = block then draft.exits source else [] := by
    by_cases same : source = block <;> simp [List.filter_map, Function.comp_def, same]
  rw [edgeList, List.filter_flatMap, List.map_flatMap]
  simp only [row]
  rw [flatMap_ite, filter_eq_of_nodup draft.handles_nodup, if_pos known, List.flatMap_singleton]

/-- The edges that enter a block come from the blocks that exit to it, each listed once. -/
theorem entering_edgeList (draft : Draft) (block : Block) :
    (draft.edgeList.filter fun edge => edge.2 = block).map Prod.fst =
      draft.handles.filter fun source => block ∈ draft.exits source := by
  have row (source : Block) : (((draft.exits source).map fun target => (source, target)).filter
      fun edge => edge.2 = block).map Prod.fst =
        if block ∈ draft.exits source then [source] else [] := by
    rw [List.filter_map, List.map_map]
    simp only [Function.comp_def]
    rw [filter_eq_of_nodup (draft.exits_nodup source)]
    split <;> rfl
  rw [edgeList, List.filter_flatMap, List.map_flatMap]
  simp only [row]
  rw [flatMap_ite, List.flatMap_singleton']

theorem toFunction_isOk {draft : Draft} :
    (∃ function, draft.toFunction = .ok function) ↔ draft.Complete := by
  constructor
  · rintro ⟨function, built⟩
    obtain ⟨edges, found, checked, _⟩ := toFunction_eq_ok built
    obtain ⟨each, rfl⟩ := edges_eq_ok.mp found
    refine ⟨fun block bound => exists_targets_iff_ends.mp (each block (mem_handles.mpr bound)), ?_⟩
    intro inst instruction incoming listed phi
    have selected := checkPhi_eq_ok.mp
      (checkPhis_eq_ok.mp checked inst instruction listed (by rw [phi]; rfl))
    simpa only [phi, Opcode.incoming, mem_edgeList_iff_leads] using selected
  · intro complete
    have found : draft.edges = .ok draft.edgeList := edges_eq_ok.mpr ⟨fun block known =>
      exists_targets_iff_ends.mpr (complete.ends block (mem_handles.mp known)), rfl⟩
    have checked : draft.checkPhis draft.edgeList = .ok () := by
      refine checkPhis_eq_ok.mpr fun inst instruction listed phi => checkPhi_eq_ok.mpr ?_
      cases selected : instruction.opcode with
      | phi incoming =>
        simpa only [Opcode.incoming, mem_edgeList_iff_leads] using
          complete.selects inst instruction incoming listed selected
      | _ => simp [selected, Opcode.isPhi] at phi
    exact ⟨_, Fallible.bind_eq_ok.mpr ⟨_, found, Fallible.check_eq_ok.mpr ⟨checked, rfl⟩⟩⟩

end Draft

namespace Function

variable {draft : Draft} {function : Function} (built : draft.toFunction = .ok function)

include built

theorem successorsOf_built {source : Block} {targets : List Block} :
    function.successorsOf source = .ok targets ↔
      source ∈ draft.handles ∧ draft.exits source = targets := by
  obtain ⟨_, found, _, _, _, leaving⟩ := Draft.toFunction_eq_ok built
  obtain ⟨_, rfl⟩ := Draft.edges_eq_ok.mp found
  rw [successorsOf_eq_ok, leaving, Draft.getElem?_rows]
  by_cases known : source ∈ draft.handles
  · simp [known, Draft.leaving_edgeList known]
  · simp [known]

theorem predecessorsOf_built {target : Block} {sources : List Block} :
    function.predecessorsOf target = .ok sources ↔ target ∈ draft.handles ∧
      (draft.handles.filter fun source => target ∈ draft.exits source) = sources := by
  obtain ⟨_, found, _, _, entering, _⟩ := Draft.toFunction_eq_ok built
  obtain ⟨_, rfl⟩ := Draft.edges_eq_ok.mp found
  rw [predecessorsOf_eq_ok, entering, Draft.getElem?_rows]
  by_cases known : target ∈ draft.handles
  · simp [known, Draft.entering_edgeList]
  · simp [known]

end Function

/-- The edges that a function lists at a block of its draft. Targets come in the order in which the
terminator names them, sources in the order of the blocks. -/
structure Function.Wired (function : Function) (draft : Draft) (block : Block) : Prop where
  successors : ∃ opcode ∈ draft.ending? block, opcode.isTerminator = true ∧
    function.successorsOf block = .ok opcode.mentions.eraseDups ∧
    ∀ target ∈ opcode.mentions, target.index < draft.blocks.size
  predecessors : ∃ sources, function.predecessorsOf block = .ok sources ∧
    (sources.Pairwise fun earlier later => earlier.index < later.index) ∧
    ∀ source, source ∈ sources ↔
      ∃ targets, function.successorsOf source = .ok targets ∧ block ∈ targets

theorem Draft.Coherent.wired {draft : Draft} (coherent : draft.Coherent) {function : Function}
    (built : draft.toFunction = .ok function) {block : Block}
    (bound : block.index < draft.blocks.size) : function.Wired draft block := by
  have known := mem_handles.mpr bound
  constructor
  · obtain ⟨opcode, ended, terminator⟩ := (toFunction_isOk.mp ⟨function, built⟩).ends block bound
    have named := Opcode.successors_eq_eraseDups terminator
    refine ⟨opcode, ended, terminator, ?_, ?_⟩
    · rw [Function.successorsOf_built built, ← named]
      exact ⟨known, exits_eq (targets_of_ending ended terminator)⟩
    · intro target member
      obtain ⟨last, _, found⟩ := Option.bind_eq_some_iff.mp ended
      exact coherent.targets last opcode found target (named ▸ List.mem_eraseDups.mpr member)
  · refine ⟨_, (Function.predecessorsOf_built built).mpr ⟨known, rfl⟩,
      draft.handles_pairwise.filter _, fun source => ?_⟩
    simp [Function.successorsOf_built built]

/-- After any attempts at construction, a draft can be finished exactly if it is complete, and the
finished function has the tables of the draft and lists the edges of its terminators. -/
theorem complete_drafts_finish (name : String) (steps : List Step) :
    ((∃ function, ((Draft.empty name).steps steps).2.toFunction = .ok function) ↔
      ((Draft.empty name).steps steps).2.Complete) ∧
    ∀ function, ((Draft.empty name).steps steps).2.toFunction = .ok function →
      function.toDraft = ((Draft.empty name).steps steps).2 ∧
      ∀ block : Block, block.index < function.blocks.size → function.Wired function.toDraft block := by
  refine ⟨Draft.toFunction_isOk, fun function built => ?_⟩
  obtain ⟨_, _, _, same, _⟩ := Draft.toFunction_eq_ok built
  rw [same]
  exact ⟨rfl, fun block bound => (Draft.Coherent.steps name steps).wired built bound⟩

/-- A branch whose targets are one block, into a loop whose phi gets its pairs one by one and in
another order than the edges. -/
def Step.folded : List Step :=
  [.argument, .block none, .block none, .block none,
    .append ⟨1⟩ (.phi []), .append ⟨1⟩ (.branchIf ⟨1⟩ ⟨2⟩ ⟨1⟩), .append ⟨2⟩ (.branch ⟨1⟩),
    .addIncoming ⟨1⟩ ⟨2⟩ ⟨1⟩, .append ⟨0⟩ (.branchIf ⟨0⟩ ⟨1⟩ ⟨1⟩),
    .addIncoming ⟨1⟩ ⟨0⟩ ⟨0⟩, .addIncoming ⟨1⟩ ⟨1⟩ ⟨1⟩]

theorem folded_draft_finishes : ∃ function,
    ((Draft.empty "folded").steps Step.folded).2.toFunction = .ok function ∧
    ((Draft.empty "folded").steps Step.folded).2.Complete ∧
    function.successorsOf ⟨0⟩ = .ok [⟨1⟩] ∧ function.successorsOf ⟨1⟩ = .ok [⟨2⟩, ⟨1⟩] ∧
    function.predecessorsOf ⟨1⟩ = .ok [⟨0⟩, ⟨1⟩, ⟨2⟩] ∧
    ∀ block : Block, block.index < function.blocks.size → function.Wired function.toDraft block :=
  ⟨_, rfl, (complete_drafts_finish "folded" Step.folded).1.mp ⟨_, rfl⟩, rfl, rfl, rfl,
    ((complete_drafts_finish "folded" Step.folded).2 _ rfl).2⟩

end Dataflow.Ssa
