import Dataflow.Proofs.Fallible
import Dataflow.Ssa.Draft

/-! What construction does to the tables of a draft. A step either leaves the draft alone or
grows it in one of a few ways, so a property holds of every draft that can be built if it holds
of the empty one and each way of growing keeps it. -/
namespace Dataflow.Ssa

theorem Opcode.mem_mentions_of_successors (opcode : Opcode) {target : Block}
    (member : target ∈ opcode.successors) : target ∈ opcode.mentions := by
  cases opcode with
  | branch only => exact member
  | branchIf condition onTrue onFalse =>
    simp only [successors] at member
    split at member
    · exact List.mem_cons.mpr (Or.inl (List.mem_singleton.mp member))
    · exact member
  | _ => cases member

namespace Draft

/-! The checks. -/

theorem checkBlock_eq_ok {draft : Draft} {block : Block} :
    draft.checkBlock block = .ok () ↔ block.index < draft.blocks.size := by
  simp [checkBlock]

theorem checkValue_eq_ok {draft : Draft} {value : Value} :
    draft.checkValue value = .ok () ↔ value.index < draft.values.size := by
  simp [checkValue]

theorem checkPlace_eq_ok {draft : Draft} {block : Block} {opcode : Opcode} :
    draft.checkPlace block opcode = .ok () ↔
      (∀ last ∈ (draft.placed block).getLast?, draft.isTerminator last = false) ∧
      (opcode.isPhi = true → ∀ inst ∈ draft.placed block, draft.isPhi inst = true) := by
  unfold checkPlace
  cases ended : (draft.placed block).getLast? with
  | none => simp
  | some last => cases terminator : draft.isTerminator last <;> simp [terminator]

structure Fits (draft : Draft) (block : Block) (opcode : Opcode) : Prop where
  mentions : ∀ other ∈ opcode.mentions, other.index < draft.blocks.size
  known : block.index < draft.blocks.size
  operands : ∀ value ∈ opcode.operands, value.index < draft.values.size
  unterminated : ∀ last ∈ (draft.placed block).getLast?, draft.isTerminator last = false
  leading : opcode.isPhi = true → ∀ inst ∈ draft.placed block, draft.isPhi inst = true

theorem checkAppend_eq_ok {draft : Draft} {block : Block} {opcode : Opcode} :
    draft.checkAppend block opcode = .ok () ↔ draft.Fits block opcode := by
  unfold checkAppend
  rw [Fallible.check_eq_ok, Fallible.check_eq_ok, Fallible.check_eq_ok]
  simp only [Fallible.forM_eq_ok, checkBlock_eq_ok, checkValue_eq_ok, checkPlace_eq_ok]
  constructor
  · rintro ⟨mentions, known, operands, unterminated, leading⟩
    exact ⟨mentions, known, operands, unterminated, leading⟩
  · rintro ⟨mentions, known, operands, unterminated, leading⟩
    exact ⟨mentions, known, operands, unterminated, leading⟩

def select (draft : Draft) (phi : Inst) (pairs : List (Block × Value)) : Draft :=
  { draft with
    instructions := draft.instructions.modify phi.index fun instruction =>
      { instruction with opcode := .phi pairs } }

inductive Grows (draft : Draft) : Draft → Prop where
  | argument : Grows draft draft.addArgument.2
  | constant (literal : Int) : Grows draft (draft.constant literal).2
  | block (name : Option String) : Grows draft (draft.createBlock name).2
  | nameValue {value : Value} {name : String} (known : value.index < draft.values.size) :
    Grows draft { draft with
      values := draft.values.modify value.index fun info => { info with name := some name } }
  | place {block : Block} {opcode : Opcode} (fits : draft.Fits block opcode) :
    Grows draft (draft.place block opcode).2
  | incoming {phi : Value} {source : Block} {value : Value} {inst : Inst}
      {incoming : List (Block × Value)} (known : source.index < draft.blocks.size)
      (operand : value.index < draft.values.size)
      (found : draft.phiOf? phi = some (inst, incoming)) :
    Grows draft (draft.select inst (incoming ++ [(source, value)]))

theorem grows_of_tryStep {draft grown : Draft} {step : Step} {reply : Reply}
    (taken : draft.tryStep step = .ok (reply, grown)) : draft.Grows grown := by
  cases step with
  | argument => cases taken; exact .argument
  | constant literal => cases taken; exact .constant literal
  | block name => cases taken; exact .block name
  | nameValue value name =>
    obtain ⟨named, run, same⟩ := Fallible.bind_eq_ok.mp taken
    cases same
    obtain ⟨_, known, same⟩ := Fallible.bind_eq_ok.mp run
    cases same
    exact .nameValue (checkValue_eq_ok.mp known)
  | append block opcode =>
    obtain ⟨⟨⟨inst, result⟩, placed⟩, run, same⟩ := Fallible.bind_eq_ok.mp taken
    cases same
    obtain ⟨_, fits, same⟩ := Fallible.bind_eq_ok.mp run
    have placed : (draft.place block opcode).2 = grown := congrArg Prod.snd (Except.ok.inj same)
    exact placed ▸ .place (checkAppend_eq_ok.mp fits)
  | addIncoming phi source value =>
    obtain ⟨extended, run, same⟩ := Fallible.bind_eq_ok.mp taken
    cases same
    obtain ⟨_, known, run⟩ := Fallible.bind_eq_ok.mp run
    obtain ⟨_, operand, run⟩ := Fallible.bind_eq_ok.mp run
    obtain ⟨_, _, run⟩ := Fallible.bind_eq_ok.mp run
    cases found : draft.phiOf? phi with
    | none => simp [found, throw, throwThe, MonadExceptOf.throw] at run
    | some selected =>
      simp only [found] at run
      cases run
      exact .incoming (checkBlock_eq_ok.mp known) (checkValue_eq_ok.mp operand) found

theorem step_grows (draft : Draft) (step : Step) :
    (draft.step step).2 = draft ∨ draft.Grows (draft.step step).2 := by
  unfold Draft.step
  cases taken : draft.tryStep step with
  | error error => exact Or.inl rfl
  | ok answer => exact Or.inr (grows_of_tryStep taken)

/-- What every way of growing keeps is kept by construction as a whole. -/
theorem steps_induction {property : Draft → Prop}
    (grows : ∀ draft grown, property draft → draft.Grows grown → property grown) {draft : Draft}
    (holds : property draft) (steps : List Step) : property (draft.steps steps).2 := by
  induction steps generalizing draft with
  | nil => exact holds
  | cons first rest ih =>
    change property ((draft.step first).2.steps rest).2
    apply ih
    rcases draft.step_grows first with same | grown
    · rwa [same]
    · exact grows draft _ holds grown

/-! What growing does to the tables. -/

theorem placed_createBlock (draft : Draft) (name : Option String) (block : Block) :
    (draft.createBlock name).2.placed block = draft.placed block := by
  simp only [createBlock, placed, block?, Array.getElem?_push]
  split
  · next new => simp [new]
  · rfl

theorem blocks_place (draft : Draft) (block : Block) (opcode : Opcode) :
    (draft.place block opcode).2.blocks = draft.blocks.modify block.index fun info =>
      { info with instructions := info.instructions ++ [⟨draft.instructions.size⟩] } := rfl

theorem instructions_place (draft : Draft) (block : Block) (opcode : Opcode) :
    (draft.place block opcode).2.instructions =
      draft.instructions.push ⟨block, opcode, (draft.place block opcode).1.2⟩ := rfl

theorem placed_place {draft : Draft} {block : Block} (known : block.index < draft.blocks.size)
    (opcode : Opcode) (other : Block) :
    (draft.place block opcode).2.placed other =
      if other = block then draft.placed block ++ [⟨draft.instructions.size⟩]
      else draft.placed other := by
  simp only [placed, block?, blocks_place, Array.getElem?_modify]
  by_cases same : other = block
  · subst same
    simp [known]
  · have apart : block.index ≠ other.index := fun index => same (congrArg Block.mk index.symm)
    simp [same, apart]

theorem instruction?_place (draft : Draft) (block : Block) (opcode : Opcode) (inst : Inst) :
    (draft.place block opcode).2.instruction? inst =
      if inst.index = draft.instructions.size then
        some ⟨block, opcode, (draft.place block opcode).1.2⟩
      else draft.instruction? inst := by
  simp only [instruction?, instructions_place, Array.getElem?_push]

theorem opcode?_place (draft : Draft) (block : Block) (opcode : Opcode) (inst : Inst) :
    (draft.place block opcode).2.opcode? inst =
      if inst.index = draft.instructions.size then some opcode else draft.opcode? inst := by
  rw [opcode?, instruction?_place]
  split <;> rfl

theorem instruction?_select (draft : Draft) (phi : Inst) (pairs : List (Block × Value)) (inst : Inst) :
    (draft.select phi pairs).instruction? inst = (draft.instruction? inst).map fun instruction =>
      if inst = phi then { instruction with opcode := .phi pairs } else instruction := by
  simp only [instruction?, select, Array.getElem?_modify]
  by_cases same : inst = phi
  · subst same
    simp
  · have apart : phi.index ≠ inst.index := fun index => same (congrArg Inst.mk index.symm)
    simp [same, apart]

theorem opcode?_phiOf? {draft : Draft} {value : Value} {phi : Inst} {pairs : List (Block × Value)}
    (found : draft.phiOf? value = some (phi, pairs)) : draft.opcode? phi = some (.phi pairs) := by
  obtain ⟨inst, _, selects⟩ := Option.bind_eq_some_iff.mp found
  split at selects
  · next listed =>
    cases selects
    exact listed
  · cases selects

theorem opcode?_select {draft : Draft} {phi : Inst} {old : List (Block × Value)}
    (found : draft.opcode? phi = some (.phi old)) (pairs : List (Block × Value)) (inst : Inst) :
    (draft.select phi pairs).opcode? inst =
      if inst = phi then some (.phi pairs) else draft.opcode? inst := by
  rw [opcode?, instruction?_select, Option.map_map]
  by_cases same : inst = phi
  · subst same
    obtain ⟨instruction, listed, _⟩ := Option.map_eq_some_iff.mp found
    simp [listed]
  · simp [same, opcode?, Function.comp_def]

structure Coherent (draft : Draft) : Prop where
  owned : ∀ block, ∀ inst ∈ draft.placed block,
    ∃ instruction, draft.instruction? inst = some instruction ∧ instruction.block = block
  ascending : ∀ block, (draft.placed block).Pairwise fun earlier later => earlier.index < later.index
  /-- No phi comes after an ordinary instruction. -/
  leading : ∀ block, (draft.placed block).Pairwise fun earlier later =>
    draft.isPhi later = true → draft.isPhi earlier = true
  targets : ∀ inst opcode, draft.opcode? inst = some opcode →
    ∀ target ∈ opcode.successors, target.index < draft.blocks.size

namespace Coherent

theorem empty (name : String) : (Draft.empty name).Coherent := by
  have nothing : ∀ block, (Draft.empty name).placed block = [] := fun block => by
    simp [placed, block?, Draft.empty]
  refine ⟨?_, ?_, ?_, ?_⟩
  · intro block inst member
    simp [nothing] at member
  · intro block
    simp [nothing]
  · intro block
    simp [nothing]
  · intro inst opcode found
    simp [opcode?, instruction?, Draft.empty] at found

/-- Values and names have no part in it. -/
theorem of_same_tables {draft grown : Draft} (coherent : draft.Coherent)
    (blocks : grown.blocks = draft.blocks) (instructions : grown.instructions = draft.instructions) :
    grown.Coherent := by
  obtain ⟨name, arguments, values, _, _⟩ := grown
  cases blocks
  cases instructions
  exact ⟨coherent.owned, coherent.ascending, coherent.leading, coherent.targets⟩

theorem createBlock {draft : Draft} (coherent : draft.Coherent) (name : Option String) :
    (draft.createBlock name).2.Coherent := by
  refine ⟨?_, ?_, ?_, ?_⟩
  · intro block
    rw [placed_createBlock]
    exact coherent.owned block
  · intro block
    rw [placed_createBlock]
    exact coherent.ascending block
  · intro block
    rw [placed_createBlock]
    exact coherent.leading block
  · intro inst opcode found target member
    have known := coherent.targets inst opcode found target member
    simp only [Draft.createBlock, Array.size_push]
    omega

theorem index_lt {draft : Draft} (coherent : draft.Coherent) {block : Block} {inst : Inst}
    (member : inst ∈ draft.placed block) : inst.index < draft.instructions.size := by
  obtain ⟨instruction, found, _⟩ := coherent.owned block inst member
  exact (Array.getElem?_eq_some_iff.mp found).1

theorem place {draft : Draft} (coherent : draft.Coherent) {block : Block} {opcode : Opcode}
    (fits : draft.Fits block opcode) : (draft.place block opcode).2.Coherent := by
  have old : ∀ {other : Block} {inst : Inst}, inst ∈ draft.placed other →
      inst.index ≠ draft.instructions.size := fun member => Nat.ne_of_lt (coherent.index_lt member)
  have phi : ∀ {other : Block} {inst : Inst}, inst ∈ draft.placed other →
      (draft.place block opcode).2.isPhi inst = draft.isPhi inst := by
    intro other inst member
    rw [isPhi, opcode?_place, if_neg (old member), isPhi]
  refine ⟨?_, ?_, ?_, ?_⟩
  · intro other inst member
    rw [instruction?_place]
    rw [placed_place fits.known] at member
    split at member
    · next same =>
      rcases List.mem_append.mp member with earlier | new
      · rw [if_neg (old earlier), same]
        exact coherent.owned block inst earlier
      · rw [List.mem_singleton.mp new, if_pos rfl]
        exact ⟨_, rfl, same.symm⟩
    · rw [if_neg (old member)]
      exact coherent.owned other inst member
  · intro other
    rw [placed_place fits.known]
    split
    · refine List.pairwise_append.mpr ⟨coherent.ascending block, List.pairwise_singleton _ _, ?_⟩
      intro earlier member later new
      rw [List.mem_singleton.mp new]
      exact coherent.index_lt member
    · exact coherent.ascending other
  · intro other
    have kept := (coherent.leading other).imp_of_mem fun {earlier later} first second leading => by
      rwa [← phi first, ← phi second] at leading
    rw [placed_place fits.known]
    split
    · next same =>
      subst same
      refine List.pairwise_append.mpr ⟨kept, List.pairwise_singleton _ _, ?_⟩
      intro earlier member later new isPhi
      rw [List.mem_singleton.mp new, Draft.isPhi, opcode?_place, if_pos rfl] at isPhi
      rw [phi member]
      exact fits.leading isPhi earlier member
    · exact kept
  · intro inst operation found target member
    rw [blocks_place, Array.size_modify]
    rw [opcode?_place] at found
    split at found
    · cases found
      exact fits.mentions target (opcode.mem_mentions_of_successors member)
    · exact coherent.targets inst operation found target member

theorem select {draft : Draft} (coherent : draft.Coherent) {phi : Inst}
    {old : List (Block × Value)} (found : draft.opcode? phi = some (.phi old))
    (pairs : List (Block × Value)) : (draft.select phi pairs).Coherent := by
  have same : ∀ inst, (draft.select phi pairs).isPhi inst = draft.isPhi inst := by
    intro inst
    rw [isPhi, opcode?_select found, isPhi]
    split
    · next here => simp [here, found, Opcode.isPhi]
    · rfl
  refine ⟨?_, coherent.ascending, ?_, ?_⟩
  · intro block inst member
    obtain ⟨instruction, listed, owner⟩ := coherent.owned block inst member
    rw [instruction?_select, listed]
    refine ⟨_, rfl, ?_⟩
    split <;> exact owner
  · intro block
    refine (coherent.leading block).imp fun {earlier later} leading => ?_
    rwa [same, same]
  · intro inst operation listed target member
    rw [opcode?_select found] at listed
    split at listed
    · cases listed
      cases member
    · exact coherent.targets inst operation listed target member

theorem grow {draft grown : Draft} (coherent : draft.Coherent) (grows : draft.Grows grown) :
    grown.Coherent := by
  cases grows with
  | argument => exact coherent.of_same_tables rfl rfl
  | constant literal => exact coherent.of_same_tables rfl rfl
  | block name => exact coherent.createBlock name
  | nameValue _ => exact coherent.of_same_tables rfl rfl
  | place fits => exact coherent.place fits
  | incoming _ _ found => exact coherent.select (opcode?_phiOf? found) _

/-- Every draft that can be built is coherent. -/
theorem steps (name : String) (steps : List Step) : ((Draft.empty name).steps steps).2.Coherent :=
  steps_induction (fun _ _ coherent grows => coherent.grow grows) (empty name) steps

end Coherent

end Draft

end Dataflow.Ssa
