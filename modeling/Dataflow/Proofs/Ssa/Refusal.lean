import Dataflow.Proofs.Ssa.Definitions
import Dataflow.Ssa.Building

/-! Refusals. Every addition looks at the draft before it changes anything, so what is built in
place is what is built by steps that are taken as a whole or not at all. A step is taken exactly
if the handles it is given are known and it fits where it goes, and the steps that were refused
can be left out without a trace. -/
namespace Dataflow.Ssa

namespace Building

variable {α γ : Type}

/-- The change as a whole: nothing is left of one that is refused. -/
def whole (draft : Draft) : Except DraftError (α × Draft) → Except DraftError α × Draft
  | .ok (value, grown) => (.ok value, grown)
  | .error error => (.error error, draft)

theorem run_bind (first : Building α) (next : α → Building γ) (draft : Draft) :
    (first >>= next).run draft =
      match first.run draft with
      | (.ok value, grown) => (next value).run grown
      | (.error error, left) => (.error error, left) := by
  change ExceptT.bindCont next (ExceptT.run first draft).1 (ExceptT.run first draft).2 = _
  unfold Building.run
  rcases ExceptT.run first draft with ⟨_ | value, left⟩ <;> rfl

theorem run_ask (question : Draft → Except DraftError α) (draft : Draft) :
    (ask question).run draft = (question draft, draft) := rfl

theorem run_get (draft : Draft) : (get : Building Draft).run draft = (.ok draft, draft) := rfl

/-- A question in front of a change that is made as a whole. -/
theorem run_ask_bind {question : Draft → Except DraftError α} {next : α → Building γ}
    {draft : Draft} {after : α → Except DraftError (γ × Draft)}
    (rest : ∀ value, question draft = .ok value →
      (next value).run draft = whole draft (after value)) :
    (ask question >>= next).run draft = whole draft (question draft >>= after) := by
  rw [run_bind, run_ask]
  cases asked : question draft with
  | error error => rfl
  | ok value => exact rest value asked

/-- Asking about each of a list is asking about the list. -/
theorem forM_ask (question : Draft → α → Except DraftError Unit) (about : List α) :
    (about.forM fun one => ask (question · one)) =
      ask fun draft => about.forM (question draft) := by
  induction about with
  | nil => rfl
  | cons first rest ih =>
    funext draft
    change (ask (question · first) >>= fun _ => rest.forM fun one => ask (question · one)).run
      draft = (question draft first >>= fun _ => rest.forM (question draft), draft)
    rw [run_bind, run_ask, ih]
    cases question draft first with
    | error error => rfl
    | ok _ => rfl

def canPush (draft : Draft) (block : Block) (opcode : Opcode) : Except DraftError Unit := do
  draft.checkBlock block
  opcode.operands.forM draft.checkValue
  draft.checkPlace block opcode

theorem checkAppend_eq (draft : Draft) (block : Block) (opcode : Opcode) :
    draft.checkAppend block opcode =
      opcode.mentions.forM draft.checkBlock >>= fun _ => canPush draft block opcode := rfl

/-- When the questions have been answered, an instruction goes into all three tables. -/
theorem run_push (block : Block) (opcode : Opcode) (draft : Draft) :
    (push block opcode).run draft =
      whole draft (canPush draft block opcode >>= fun _ => pure (draft.place block opcode)) := by
  unfold push canPush
  simp only [bind_assoc]
  refine run_ask_bind fun _ _ => ?_
  rw [forM_ask Draft.checkValue]
  refine run_ask_bind fun _ _ => ?_
  refine run_ask_bind fun _ _ => ?_
  cases defines : opcode.definesValue <;>
    simp only [Draft.place, defines, if_true, if_false, Bool.false_eq_true] <;> rfl

/-- An operation that defines a value is not refused once it has been pushed. -/
theorem run_pushValue {opcode : Opcode} (defines : opcode.definesValue = true) (block : Block)
    (draft : Draft) :
    (pushValue block opcode).run draft = whole draft (canPush draft block opcode >>= fun _ =>
      pure (⟨draft.values.size⟩, (draft.place block opcode).2)) := by
  have result : draft.place block opcode =
      (((draft.place block opcode).1.1, some ⟨draft.values.size⟩), (draft.place block opcode).2) :=
    Prod.ext (Prod.ext rfl (by rw [Draft.result_place, if_pos defines])) rfl
  unfold pushValue
  rw [run_bind, run_push]
  cases canPush draft block opcode with
  | error error => rfl
  | ok _ =>
    rw [result]
    rfl

theorem run_setValueName (value : Value) (name : String) (draft : Draft) :
    (setValueName value name).run draft =
      whole draft (return ((), ← draft.setValueName value name)) := by
  unfold setValueName Draft.setValueName
  rw [bind_assoc]
  exact run_ask_bind fun _ _ => rfl

theorem run_pushIncoming (inst : Inst) (source : Block) (value : Value) (draft : Draft) :
    (pushIncoming inst source value).run draft =
      match draft.opcode? inst with
      | some (.phi incoming) => (.ok true, draft.select inst (incoming ++ [(source, value)]))
      | _ => (.ok false, draft) := by
  rw [pushIncoming, run_bind, run_get]
  dsimp only
  rcases draft.opcode? inst with _ | opcode
  · rfl
  · cases opcode <;> rfl

theorem run_addIncoming (phi : Value) (source : Block) (value : Value) (draft : Draft) :
    (addIncoming phi source value).run draft =
      whole draft (return ((), ← draft.addIncoming phi source value)) := by
  unfold addIncoming Draft.addIncoming
  simp only [bind_assoc]
  refine run_ask_bind fun _ _ => ?_
  refine run_ask_bind fun _ _ => ?_
  refine run_ask_bind fun _ _ => ?_
  unfold Draft.phiOf?
  rw [run_bind, run_get]
  dsimp only
  cases defined : (draft.value? phi).bind fun info => info.origin.definedBy? with
  | none => rfl
  | some inst =>
    dsimp only
    rw [run_bind, run_pushIncoming, Option.bind_some]
    rcases draft.opcode? inst with _ | opcode
    · rfl
    · cases opcode <;> rfl

end Building

/-- Whoever appends is handed a value exactly if the operation defines one. -/
theorem Step.perform_append (target : Block) (opcode : Opcode) :
    (Step.append target opcode).perform = (do
      opcode.mentions.forM fun other => Building.ask (·.checkBlock other)
      if opcode.definesValue then return .value (← Building.pushValue target opcode)
      else return .inst (← Building.push target opcode).1) := by
  cases opcode with
  | call callee arguments returns => cases returns <;> rfl
  | _ => rfl

theorem Draft.step_eq_whole (draft : Draft) (step : Step) :
    draft.step step = Building.whole draft (draft.tryStep step) := by
  rw [Draft.step]
  rcases draft.tryStep step with _ | ⟨reply, grown⟩ <;> rfl

open Building in
/-- A step in place is a step as a whole. -/
theorem Step.run_perform (step : Step) (draft : Draft) :
    step.perform.run draft = draft.step step := by
  rw [Draft.step_eq_whole]
  cases step with
  | argument => rfl
  | constant literal => rfl
  | block name => rfl
  | nameValue value name =>
    rw [perform, run_bind, run_setValueName, Draft.tryStep]
    cases draft.setValueName value name <;> rfl
  | addIncoming phi source value =>
    rw [perform, run_bind, run_addIncoming, Draft.tryStep]
    cases draft.addIncoming phi source value <;> rfl
  | append target opcode =>
    rw [perform_append, forM_ask Draft.checkBlock, Draft.tryStep, Draft.append, checkAppend_eq]
    simp only [bind_assoc]
    refine run_ask_bind fun _ _ => ?_
    have result := draft.result_place target opcode
    cases defines : opcode.definesValue with
    | true =>
      rw [if_pos rfl, run_bind, run_pushValue defines]
      rw [if_pos defines] at result
      cases canPush draft target opcode with
      | error error => rfl
      | ok _ =>
        change _ = (Except.ok ((draft.place target opcode).1.2.elim _ Reply.value), _)
        rw [result]
        rfl
    | false =>
      rw [if_neg Bool.false_ne_true, run_bind, run_push]
      rw [if_neg (by simp [defines])] at result
      cases canPush draft target opcode with
      | error error => rfl
      | ok _ =>
        change _ = (Except.ok ((draft.place target opcode).1.2.elim _ Reply.value), _)
        rw [result]
        rfl

namespace Draft

def Accepts (draft : Draft) : Step → Prop
  | .argument | .constant _ | .block _ => True
  | .nameValue value _ => value.index < draft.values.size
  | .append block opcode => draft.Fits block opcode
  | .addIncoming phi source value =>
    source.index < draft.blocks.size ∧ value.index < draft.values.size ∧
      phi.index < draft.values.size ∧
      ∃ inst, draft.resultOf? inst = some phi ∧ draft.isPhi inst = true

theorem isPhi_iff {draft : Draft} {inst : Inst} :
    draft.isPhi inst = true ↔ ∃ pairs, draft.opcode? inst = some (.phi pairs) := by
  rw [isPhi]
  rcases draft.opcode? inst with _ | opcode
  · simp
  · cases opcode <;> simp [Opcode.isPhi]

theorem definedBy?_iff {draft : Draft} {value : Value} {inst : Inst} :
    ((draft.value? value).bind fun info => info.origin.definedBy?) = some inst ↔
      draft.originOf? value = some (.result inst) := by
  rw [originOf?]
  rcases draft.value? value with _ | ⟨origin, name⟩
  · simp
  · cases origin <;> simp [Origin.definedBy?]

theorem exists_phiOf?_iff {draft : Draft} (linked : draft.Linked) {value : Value} :
    (∃ selected, draft.phiOf? value = some selected) ↔
      ∃ inst, draft.resultOf? inst = some value ∧ draft.isPhi inst = true := by
  constructor
  · rintro ⟨⟨phi, pairs⟩, found⟩
    obtain ⟨inst, defined, selects⟩ := Option.bind_eq_some_iff.mp found
    split at selects
    · next listed =>
      cases selects
      exact ⟨phi, (linked.results phi value).mpr (definedBy?_iff.mp defined),
        isPhi_iff.mpr ⟨pairs, listed⟩⟩
    · cases selects
  · rintro ⟨inst, result, phi⟩
    obtain ⟨pairs, listed⟩ := isPhi_iff.mp phi
    refine ⟨(inst, pairs), Option.bind_eq_some_iff.mpr ⟨inst, ?_, by rw [listed]⟩⟩
    exact definedBy?_iff.mpr ((linked.results inst value).mp result)

/-- In a linked draft a step is taken exactly if it gets what it needs. -/
theorem Linked.tryStep_iff {draft : Draft} (linked : draft.Linked) (step : Step) :
    (∃ answer, draft.tryStep step = .ok answer) ↔ draft.Accepts step := by
  cases step with
  | argument => exact iff_of_true ⟨_, rfl⟩ trivial
  | constant literal => exact iff_of_true ⟨_, rfl⟩ trivial
  | block name => exact iff_of_true ⟨_, rfl⟩ trivial
  | nameValue value name =>
    simp only [tryStep, setValueName, bind_assoc, Fallible.check_eq_ok, exists_and_left,
      checkValue_eq_ok, Accepts]
    exact and_iff_left ⟨_, rfl⟩
  | append block opcode =>
    simp only [tryStep, append, bind_assoc, Fallible.check_eq_ok, exists_and_left,
      checkAppend_eq_ok, Accepts]
    exact and_iff_left ⟨_, rfl⟩
  | addIncoming phi source value =>
    simp only [tryStep, addIncoming, bind_assoc, Fallible.check_eq_ok, exists_and_left,
      checkBlock_eq_ok, checkValue_eq_ok, Accepts, ← exists_phiOf?_iff linked]
    refine and_congr_right fun _ => and_congr_right fun _ => and_congr_right fun _ => ?_
    rcases draft.phiOf? phi with _ | selected
    · refine iff_of_false ?_ ?_
      · rintro ⟨answer, taken⟩
        cases taken
      · rintro ⟨selected, found⟩
        cases found
    · exact iff_of_true ⟨_, rfl⟩ ⟨selected, rfl⟩

theorem eq_of_step_error {draft left : Draft} {step : Step} {error : DraftError}
    (refused : draft.step step = (.error error, left)) : left = draft := by
  rw [step_eq_whole] at refused
  cases attempted : draft.tryStep step with
  | error error =>
    rw [attempted] at refused
    cases refused
    rfl
  | ok answer =>
    rw [attempted] at refused
    cases refused

theorem exists_step_ok_iff {draft : Draft} {step : Step} :
    (∃ reply grown, draft.step step = (.ok reply, grown)) ↔
      ∃ answer, draft.tryStep step = .ok answer := by
  rw [step_eq_whole]
  cases draft.tryStep step with
  | error error => simp [Building.whole]
  | ok answer => exact iff_of_true ⟨_, _, rfl⟩ ⟨_, rfl⟩

def taken (steps : List Step) (answers : List (Except DraftError Reply)) : List Step :=
  ((steps.zip answers).filter fun answered => answered.2.isOk).map Prod.fst

theorem steps_cons {draft grown : Draft} {first : Step} {answer : Except DraftError Reply}
    (attempted : draft.step first = (answer, grown)) (rest : List Step) :
    draft.steps (first :: rest) = (answer :: (grown.steps rest).1, (grown.steps rest).2) := by
  rw [Draft.steps, attempted]

/-- Without the steps that were refused, the others get the same answers. -/
theorem steps_taken (draft : Draft) (steps : List Step) :
    draft.steps (taken steps (draft.steps steps).1) =
      ((draft.steps steps).1.filter Except.isOk, (draft.steps steps).2) := by
  induction steps generalizing draft with
  | nil => rfl
  | cons first rest ih =>
    cases attempted : draft.step first with
    | mk answer grown =>
      rw [steps_cons attempted]
      cases answer with
      | error error =>
        obtain rfl := eq_of_step_error attempted
        exact ih grown
      | ok reply =>
        change draft.steps (first :: taken rest (grown.steps rest).1) =
          (.ok reply :: (grown.steps rest).1.filter Except.isOk, (grown.steps rest).2)
        rw [steps_cons attempted, ih grown]

end Draft

theorem Building.attempts_eq_steps (steps : List Step) (draft : Draft) :
    Building.attempts steps draft = draft.steps steps := by
  induction steps generalizing draft with
  | nil => rfl
  | cons first rest ih => simp only [attempts, Draft.steps, Step.run_perform, ih]

/-- After any attempts at construction in place, a step is taken exactly if it gets what it needs,
and one that is refused leaves every table as it was. So the attempts that were refused can be left
out: the others get the answers they got and build the same draft, which is all that a finished
function comes from. -/
theorem refusals_leave_no_trace (name : String) (steps : List Step) :
    ∃ answers draft, Building.attempts steps (Draft.empty name) = (answers, draft) ∧
      (Draft.empty name).steps steps = (answers, draft) ∧
      (∀ step : Step, (∃ reply grown, step.perform.run draft = (.ok reply, grown)) ↔
        draft.Accepts step) ∧
      (∀ (step : Step) error left, step.perform.run draft = (.error error, left) → left = draft) ∧
      Building.attempts (Draft.taken steps answers) (Draft.empty name) =
        (answers.filter Except.isOk, draft) := by
  have linked := Draft.linked_steps name steps
  refine ⟨_, _, Building.attempts_eq_steps steps (Draft.empty name), rfl, ?_, ?_, ?_⟩
  · intro step
    rw [step.run_perform, Draft.exists_step_ok_iff]
    exact linked.tryStep_iff step
  · intro step error left refused
    rw [step.run_perform] at refused
    exact Draft.eq_of_step_error refused
  · rw [Building.attempts_eq_steps]
    exact (Draft.empty name).steps_taken steps

end Dataflow.Ssa
