import Dataflow.Proofs.Ssa.Function

/-! How the tables of a draft refer to each other. Every instruction lies in exactly one block,
every handle that an instruction mentions names something, and every value comes from one place:
an argument's position, one instruction, or a constant. Additions that are refused change nothing,
so this holds after any attempts at construction. -/
namespace Dataflow.Ssa.Draft

def originOf? (draft : Draft) (value : Value) : Option Origin :=
  (draft.value? value).map ValueInfo.origin

def resultOf? (draft : Draft) (inst : Inst) : Option Value :=
  (draft.instruction? inst).bind Instruction.result

/-! What growing does to origins and results. -/

theorem lt_size_of_originOf? {draft : Draft} {value : Value} {origin : Origin}
    (found : draft.originOf? value = some origin) : value.index < draft.values.size := by
  obtain ⟨info, listed, _⟩ := Option.map_eq_some_iff.mp found
  exact (Array.getElem?_eq_some_iff.mp listed).1

theorem lt_size_of_resultOf? {draft : Draft} {inst : Inst} {value : Value}
    (found : draft.resultOf? inst = some value) : inst.index < draft.instructions.size := by
  obtain ⟨instruction, listed, _⟩ := Option.bind_eq_some_iff.mp found
  exact (Array.getElem?_eq_some_iff.mp listed).1

/-- A table that got one entry more has that entry and those it had. -/
private theorem ite_eq_some_iff_or {α : Type} {new : Prop} [Decidable new] {entry wanted : α}
    {old : Option α} (fresh : new → old = none) :
    (if new then some entry else old) = some wanted ↔ (new ∧ entry = wanted) ∨ old = some wanted := by
  split
  · next here => simp [here, fresh here]
  · next elsewhere => simp [elsewhere]

theorem originOf?_newValue (draft : Draft) (origin : Origin) (value : Value) :
    (draft.newValue origin).2.originOf? value =
      if value.index = draft.values.size then some origin else draft.originOf? value := by
  simp only [originOf?, value?, newValue, Array.getElem?_push]
  split <;> rfl

/-- A name does not change where a value comes from. -/
theorem originOf?_modify {draft grown : Draft} {value : Value} {name : String}
    (named : grown.values = draft.values.modify value.index fun info => { info with name := some name })
    (other : Value) : grown.originOf? other = draft.originOf? other := by
  simp only [originOf?, value?, named, Array.getElem?_modify]
  split
  · simp [Function.comp_def]
  · rfl

theorem result_place (draft : Draft) (block : Block) (opcode : Opcode) :
    (draft.place block opcode).1.2 =
      if opcode.definesValue = true then some ⟨draft.values.size⟩ else none := by
  unfold place
  cases opcode.definesValue <;> rfl

theorem arguments_place (draft : Draft) (block : Block) (opcode : Opcode) :
    (draft.place block opcode).2.arguments = draft.arguments := by
  unfold place
  cases opcode.definesValue <;> rfl

theorem originOf?_place (draft : Draft) (block : Block) (opcode : Opcode) (value : Value) :
    (draft.place block opcode).2.originOf? value =
      if opcode.definesValue = true ∧ value.index = draft.values.size then
        some (.result ⟨draft.instructions.size⟩)
      else draft.originOf? value := by
  cases defines : opcode.definesValue with
  | true =>
    have values : (draft.place block opcode).2.originOf? value =
        (draft.newValue (.result ⟨draft.instructions.size⟩)).2.originOf? value := by
      simp only [place, defines]
      rfl
    rw [values, originOf?_newValue]
    simp
  | false =>
    simp only [place, defines]
    rfl

theorem resultOf?_place (draft : Draft) (block : Block) (opcode : Opcode) (inst : Inst) :
    (draft.place block opcode).2.resultOf? inst =
      if inst.index = draft.instructions.size then (draft.place block opcode).1.2
      else draft.resultOf? inst := by
  rw [resultOf?, instruction?_place]
  split <;> rfl

theorem resultOf?_select (draft : Draft) (phi : Inst) (pairs : List (Block × Value)) (inst : Inst) :
    (draft.select phi pairs).resultOf? inst = draft.resultOf? inst := by
  rw [resultOf?, instruction?_select, resultOf?]
  cases draft.instruction? inst with
  | none => rfl
  | some instruction =>
    simp only [Option.map_some, Option.bind_some]
    split <;> rfl

/-! What a draft keeps while it grows. -/

structure Extends (draft grown : Draft) : Prop where
  values : draft.values.size ≤ grown.values.size
  blocks : draft.blocks.size ≤ grown.blocks.size
  origins : ∀ value : Value, value.index < draft.values.size →
    grown.originOf? value = draft.originOf? value

theorem Extends.newValue (draft : Draft) (origin : Origin) :
    draft.Extends (draft.newValue origin).2 := by
  refine ⟨?_, Nat.le_refl _, fun value known => ?_⟩
  · simp [Draft.newValue]
  · rw [originOf?_newValue, if_neg (Nat.ne_of_lt known)]

theorem Grows.extends {draft grown : Draft} (grows : draft.Grows grown) : draft.Extends grown := by
  cases grows with
  | argument => exact ⟨(Extends.newValue draft _).values, Nat.le_refl _, (Extends.newValue draft _).origins⟩
  | constant literal => exact Extends.newValue draft (.constant literal)
  | block name => exact ⟨Nat.le_refl _, by simp [createBlock], fun _ _ => rfl⟩
  | nameValue known => exact ⟨by simp, Nat.le_refl _, fun value _ => originOf?_modify rfl value⟩
  | @place block opcode fits =>
    refine ⟨?_, by simp [blocks_place], fun value known => ?_⟩
    · unfold Draft.place
      cases opcode.definesValue with
      | true => exact (Extends.newValue draft _).values
      | false => exact Nat.le_refl _
    · rw [originOf?_place, if_neg fun same => Nat.ne_of_lt known same.2]
  | incoming _ _ _ => exact ⟨Nat.le_refl _, Nat.le_refl _, fun _ _ => rfl⟩

/-- The operations of a grown draft: those it had, one that was found to fit, or a phi that
selects one pair more. -/
theorem Grows.opcode?_cases {draft grown : Draft} (grows : draft.Grows grown) {inst : Inst}
    {opcode : Opcode} (found : grown.opcode? inst = some opcode) :
    draft.opcode? inst = some opcode ∨
      (inst.index = draft.instructions.size ∧ ∃ block, draft.Fits block opcode) ∨
      ∃ pairs source value, opcode = .phi (pairs ++ [(source, value)]) ∧
        draft.opcode? inst = some (.phi pairs) ∧ source.index < draft.blocks.size ∧
        value.index < draft.values.size := by
  cases grows with
  | argument => exact Or.inl found
  | constant literal => exact Or.inl found
  | block name => exact Or.inl found
  | nameValue known => exact Or.inl found
  | place fits =>
    rw [opcode?_place] at found
    split at found
    · next new =>
      cases found
      exact Or.inr (Or.inl ⟨new, _, fits⟩)
    · exact Or.inl found
  | @incoming phi source value changed pairs known operand selects =>
    have old := opcode?_phiOf? selects
    rw [opcode?_select old] at found
    split at found
    · next same =>
      cases found
      exact Or.inr (Or.inr ⟨pairs, source, value, rfl, same ▸ old, known, operand⟩)
    · exact Or.inl found

structure Known (draft : Draft) : Prop where
  operands : ∀ inst opcode, draft.opcode? inst = some opcode →
    ∀ value ∈ opcode.operands, value.index < draft.values.size
  mentions : ∀ inst opcode, draft.opcode? inst = some opcode →
    ∀ block ∈ opcode.mentions, block.index < draft.blocks.size

theorem Known.grow {draft grown : Draft} (known : draft.Known) (grows : draft.Grows grown) :
    grown.Known := by
  refine ⟨?_, ?_⟩
  · intro inst opcode found value member
    apply Nat.lt_of_lt_of_le _ grows.extends.values
    rcases grows.opcode?_cases found with old | ⟨_, block, fits⟩ | ⟨pairs, source, new, rfl, old, _, operand⟩
    · exact known.operands inst opcode old value member
    · exact fits.operands value member
    · simp only [Opcode.operands, List.map_append, List.mem_append] at member
      rcases member with earlier | last
      · exact known.operands inst _ old value earlier
      · rw [List.mem_singleton.mp last]
        exact operand
  · intro inst opcode found block member
    apply Nat.lt_of_lt_of_le _ grows.extends.blocks
    rcases grows.opcode?_cases found with old | ⟨_, _, fits⟩ | ⟨pairs, source, new, rfl, old, bound, _⟩
    · exact known.mentions inst opcode old block member
    · exact fits.mentions block member
    · simp only [Opcode.mentions, List.map_append, List.mem_append] at member
      rcases member with earlier | last
      · exact known.mentions inst _ old block earlier
      · rw [List.mem_singleton.mp last]
        exact bound

structure Linked (draft : Draft) : Prop where
  results : ∀ inst value, draft.resultOf? inst = some value ↔
    draft.originOf? value = some (.result inst)
  defines : ∀ inst instruction, draft.instruction? inst = some instruction →
    (instruction.result.isSome = true ↔ instruction.opcode.definesValue = true)
  arguments : ∀ position value, draft.arguments[position]? = some value ↔
    draft.originOf? value = some (.argument position)

namespace Linked

theorem newValue_iff {draft : Draft} {origin wanted : Origin} {value : Value} :
    (draft.newValue origin).2.originOf? value = some wanted ↔
      (value.index = draft.values.size ∧ origin = wanted) ∨ draft.originOf? value = some wanted := by
  rw [originOf?_newValue]
  apply ite_eq_some_iff_or
  intro new
  apply Option.eq_none_iff_forall_ne_some.mpr
  intro origin found
  exact absurd new (Nat.ne_of_lt (lt_size_of_originOf? found))

theorem place_iff {draft : Draft} {block : Block} {opcode : Opcode} {wanted : Origin} {value : Value} :
    (draft.place block opcode).2.originOf? value = some wanted ↔
      ((opcode.definesValue = true ∧ value.index = draft.values.size) ∧
        .result ⟨draft.instructions.size⟩ = wanted) ∨ draft.originOf? value = some wanted := by
  rw [originOf?_place]
  apply ite_eq_some_iff_or
  rintro ⟨_, new⟩
  apply Option.eq_none_iff_forall_ne_some.mpr
  intro origin found
  exact absurd new (Nat.ne_of_lt (lt_size_of_originOf? found))

variable {draft : Draft} (linked : draft.Linked)

include linked

theorem argument : draft.addArgument.2.Linked := by
  refine ⟨fun inst value => ?_, linked.defines, fun position value => ?_⟩
  · change draft.resultOf? inst = some value ↔ (draft.newValue _).2.originOf? value = _
    rw [newValue_iff, linked.results]
    simp
  · change (draft.arguments ++ [⟨draft.values.size⟩])[position]? = some value ↔
      (draft.newValue (.argument draft.arguments.length)).2.originOf? value = _
    have last : (draft.arguments ++ [⟨draft.values.size⟩])[position]? =
        if position = draft.arguments.length then some ⟨draft.values.size⟩
        else draft.arguments[position]? := by grind
    rw [last, ite_eq_some_iff_or fun new => by simp [new], newValue_iff, linked.arguments]
    apply or_congr_left
    constructor
    · rintro ⟨rfl, rfl⟩
      exact ⟨rfl, rfl⟩
    · rintro ⟨new, same⟩
      cases same
      exact ⟨rfl, congrArg Value.mk new.symm⟩

theorem constant (literal : Int) : (draft.constant literal).2.Linked := by
  refine ⟨fun inst value => ?_, linked.defines, fun position value => ?_⟩
  · change draft.resultOf? inst = some value ↔ (draft.newValue _).2.originOf? value = _
    rw [newValue_iff, linked.results]
    simp
  · change draft.arguments[position]? = some value ↔ (draft.newValue _).2.originOf? value = _
    rw [newValue_iff, linked.arguments]
    simp

theorem place (block : Block) (opcode : Opcode) : (draft.place block opcode).2.Linked := by
  refine ⟨fun inst value => ?_, fun inst instruction found => ?_, fun position value => ?_⟩
  · rw [place_iff, ← linked.results, resultOf?_place, result_place]
    by_cases new : inst.index = draft.instructions.size
    · have same : (⟨draft.instructions.size⟩ : Inst) = inst := congrArg Inst.mk new.symm
      have absent : draft.resultOf? inst ≠ some value := fun found =>
        absurd new (Nat.ne_of_lt (lt_size_of_resultOf? found))
      rw [if_pos new, ite_eq_some_iff_or fun _ => rfl]
      simp only [same, absent, reduceCtorEq, or_false, and_true]
      exact and_congr_right fun _ => ⟨fun equal => equal ▸ rfl, fun index => congrArg Value.mk index.symm⟩
    · have other : (⟨draft.instructions.size⟩ : Inst) ≠ inst := fun same => new (same ▸ rfl)
      simp [new, other]
  · rw [instruction?_place] at found
    split at found
    · cases found
      rw [result_place]
      split <;> simp [*]
    · exact linked.defines inst instruction found
  · rw [place_iff, arguments_place, linked.arguments]
    simp

theorem select {phi : Inst} {old : List (Block × Value)}
    (found : draft.opcode? phi = some (.phi old)) (pairs : List (Block × Value)) :
    (draft.select phi pairs).Linked := by
  refine ⟨fun inst value => ?_, fun inst instruction listed => ?_, linked.arguments⟩
  · rw [resultOf?_select]
    exact linked.results inst value
  · rw [instruction?_select] at listed
    obtain ⟨before, there, rfl⟩ := Option.map_eq_some_iff.mp listed
    have same := linked.defines inst before there
    split
    · next here =>
      subst here
      have opcode : before.opcode = .phi old := by simpa [opcode?, there] using found
      rw [opcode] at same
      exact same
    · exact same

theorem grow {grown : Draft} (grows : draft.Grows grown) : grown.Linked := by
  cases grows with
  | argument => exact linked.argument
  | constant literal => exact linked.constant literal
  | block name => exact ⟨linked.results, linked.defines, linked.arguments⟩
  | nameValue known =>
    refine ⟨fun inst value => ?_, linked.defines, fun position value => ?_⟩
    · rw [originOf?_modify rfl]
      exact linked.results inst value
    · rw [originOf?_modify rfl]
      exact linked.arguments position value
  | place _ => exact linked.place _ _
  | incoming _ _ found => exact linked.select (opcode?_phiOf? found) _

end Linked

/-- An operation other than a phi reads the results of earlier instructions only. -/
def Ordered (draft : Draft) : Prop :=
  ∀ inst opcode, draft.opcode? inst = some opcode → opcode.isPhi = false →
    ∀ value ∈ opcode.operands, ∀ source, draft.originOf? value = some (.result source) →
      source.index < inst.index

theorem Ordered.grow {draft grown : Draft} (ordered : draft.Ordered) (known : draft.Known)
    (linked : draft.Linked) (grows : draft.Grows grown) : grown.Ordered := by
  intro inst opcode found ordinary value member source origin
  rcases grows.opcode?_cases found with old | ⟨new, block, fits⟩ | ⟨pairs, _, _, rfl, _⟩
  · rw [grows.extends.origins value (known.operands inst opcode old value member)] at origin
    exact ordered inst opcode old ordinary value member source origin
  · rw [grows.extends.origins value (fits.operands value member)] at origin
    rw [new]
    exact lt_size_of_resultOf? ((linked.results source value).mpr origin)
  · cases ordinary

structure Housed (draft : Draft) : Prop where
  own : ∀ inst instruction, draft.instruction? inst = some instruction →
    inst ∈ draft.placed instruction.block
  closing : ∀ block, ∀ inst ∈ (draft.placed block).dropLast, draft.isTerminator inst = false

namespace Housed

variable {draft : Draft} (housed : draft.Housed)

include housed

theorem of_same_tables {grown : Draft} (blocks : grown.blocks = draft.blocks)
    (instructions : grown.instructions = draft.instructions) : grown.Housed := by
  obtain ⟨name, arguments, values, _, _⟩ := grown
  cases blocks
  cases instructions
  exact ⟨housed.own, housed.closing⟩

theorem createBlock (name : Option String) : (draft.createBlock name).2.Housed := by
  refine ⟨fun inst instruction found => ?_, fun block => ?_⟩
  · rw [placed_createBlock]
    exact housed.own inst instruction found
  · rw [placed_createBlock]
    exact housed.closing block

theorem place (coherent : draft.Coherent) {block : Block} {opcode : Opcode}
    (fits : draft.Fits block opcode) : (draft.place block opcode).2.Housed := by
  refine ⟨fun inst instruction found => ?_, fun other inst member => ?_⟩
  · rw [instruction?_place] at found
    rw [placed_place fits.known]
    split at found
    · next new =>
      cases found
      simp [← new]
    · have before := housed.own inst instruction found
      split
      · next same => exact List.mem_append_left _ (same ▸ before)
      · exact before
  · have earlier : inst ∈ draft.placed other ∧ draft.isTerminator inst = false := by
      rw [placed_place fits.known] at member
      split at member
      · next same =>
        subst same
        rw [List.dropLast_concat] at member
        refine ⟨member, ?_⟩
        -- the block's last instruction so far was no terminator, or nothing could follow it
        rcases List.eq_nil_or_concat' (draft.placed other) with none | ⟨others, last, split⟩
        · simp [none] at member
        · rw [split] at member
          rcases List.mem_append.mp member with inner | final
          · exact housed.closing other inst (by rw [split, List.dropLast_concat]; exact inner)
          · rw [List.mem_singleton.mp final]
            exact fits.unterminated last (by simp [split])
      · exact ⟨(List.dropLast_sublist _).subset member, housed.closing other inst member⟩
    rw [isTerminator, opcode?_place, if_neg (Nat.ne_of_lt (coherent.index_lt earlier.1))]
    exact earlier.2

theorem select {phi : Inst} {old : List (Block × Value)}
    (found : draft.opcode? phi = some (.phi old)) (pairs : List (Block × Value)) :
    (draft.select phi pairs).Housed := by
  refine ⟨fun inst instruction listed => ?_, fun block inst member => ?_⟩
  · rw [instruction?_select] at listed
    obtain ⟨before, there, rfl⟩ := Option.map_eq_some_iff.mp listed
    have own := housed.own inst before there
    split <;> exact own
  · have before := housed.closing block inst member
    rw [isTerminator, opcode?_select found]
    split
    · rfl
    · exact before

theorem grow (coherent : draft.Coherent) {grown : Draft} (grows : draft.Grows grown) :
    grown.Housed := by
  cases grows with
  | argument => exact housed.of_same_tables rfl rfl
  | constant literal => exact housed.of_same_tables rfl rfl
  | block name => exact housed.createBlock name
  | nameValue _ => exact housed.of_same_tables rfl rfl
  | place fits => exact housed.place coherent fits
  | incoming _ _ found => exact housed.select (opcode?_phiOf? found) _

end Housed

/-- What holds of the tables of a draft at every moment of its construction. -/
structure Invariant (draft : Draft) : Prop extends draft.Coherent, draft.Housed, draft.Known,
    draft.Linked where
  /-- Over all blocks together every instruction is listed once, and nothing else is. -/
  once : (draft.handles.flatMap draft.placed).Perm draft.instHandles
  ordered : draft.Ordered

theorem Housed.once {draft : Draft} (housed : draft.Housed) (coherent : draft.Coherent) :
    (draft.handles.flatMap draft.placed).Perm draft.instHandles := by
  apply (List.perm_ext_iff_of_nodup coherent.placed_nodup draft.instHandles_nodup).mpr
  intro inst
  rw [List.mem_flatMap, mem_instHandles]
  constructor
  · rintro ⟨block, _, member⟩
    exact coherent.index_lt member
  · intro bound
    have member := housed.own inst draft.instructions[inst.index] (Array.getElem?_eq_getElem bound)
    exact ⟨_, mem_handles_of_placed member, member⟩

theorem Invariant.empty (name : String) : (Draft.empty name).Invariant := by
  have nothing : ∀ inst, (Draft.empty name).instruction? inst = none := fun inst => rfl
  have unknown : ∀ value, (Draft.empty name).originOf? value = none := fun value => rfl
  have coherent := Coherent.empty name
  have housed : (Draft.empty name).Housed := by
    refine ⟨fun inst instruction found => ?_, fun block inst member => ?_⟩
    · simp [nothing] at found
    · have placed := (List.dropLast_sublist _).subset member
      obtain ⟨_, found, _⟩ := coherent.owned block inst placed
      simp [nothing] at found
  refine ⟨coherent, housed, ⟨?_, ?_⟩, ⟨?_, ?_, ?_⟩, housed.once coherent, ?_⟩
  · intro inst opcode found
    simp [opcode?, nothing] at found
  · intro inst opcode found
    simp [opcode?, nothing] at found
  · intro inst value
    simp [resultOf?, nothing, unknown]
  · intro inst instruction found
    simp [nothing] at found
  · intro position value
    rw [unknown]
    simp [Draft.empty]
  · intro inst opcode found
    simp [opcode?, nothing] at found

theorem Invariant.grow {draft grown : Draft} (invariant : draft.Invariant)
    (grows : draft.Grows grown) : grown.Invariant := by
  have coherent := invariant.toCoherent.grow grows
  have housed := invariant.toHoused.grow invariant.toCoherent grows
  exact ⟨coherent, housed, invariant.toKnown.grow grows, invariant.toLinked.grow grows,
    housed.once coherent, invariant.ordered.grow invariant.toKnown invariant.toLinked grows⟩

/-- Every draft that can be built keeps its tables in order, whatever is attempted. -/
theorem invariant_steps (name : String) (steps : List Step) :
    ((Draft.empty name).steps steps).2.Invariant :=
  steps_induction (fun _ _ invariant grows => invariant.grow grows) (Invariant.empty name) steps

end Dataflow.Ssa.Draft
