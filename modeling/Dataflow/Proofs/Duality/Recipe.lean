import Dataflow.Proofs.Solver.Equations
import Dataflow.Script
import Mathlib.Data.List.Forall2

/-! Clients that only look elements up. Such a client fills facts or leaves them empty, joins them,
and inserts and erases elements that it finds by name, so what it does to the elements does not
depend on how they are numbered: over two domains with the same elements, facts that hold the same
elements are turned into facts that do. -/
namespace Dataflow

/-- Both computations end, with values that are related. -/
def Agree {α γ : Type} (related : α → γ → Prop) (first : Except Fault α) (second : Except Fault γ) :
    Prop :=
  ∃ left right, first = .ok left ∧ second = .ok right ∧ related left right

namespace Agree

variable {α γ δ ρ : Type} {related : α → γ → Prop} {first : Except Fault α}
  {second : Except Fault γ}

theorem of_ok {left : α} {right : γ} (here : related left right) :
    Agree related (.ok left) (.ok right) :=
  ⟨left, right, rfl, rfl, here⟩

theorem bind {later : δ → ρ → Prop} {next : α → Except Fault δ} {nextToo : γ → Except Fault ρ}
    (agree : Agree related first second)
    (goes : ∀ left right, related left right → Agree later (next left) (nextToo right)) :
    Agree later (first.bind next) (second.bind nextToo) := by
  obtain ⟨left, right, rfl, rfl, here⟩ := agree
  exact goes left right here

/-- A loop over one list keeps values related, if every step does. -/
theorem foldlM {step : α → δ → Except Fault α} {stepToo : γ → δ → Except Fault γ} {items : List δ}
    (steps : ∀ item ∈ items, ∀ left right, related left right →
      Agree related (step left item) (stepToo right item)) {left : α} {right : γ}
    (here : related left right) :
    Agree related (items.foldlM step left) (items.foldlM stepToo right) := by
  induction items generalizing left right with
  | nil => exact of_ok here
  | cons item rest ih =>
    rw [List.forall_mem_cons] at steps
    rw [List.foldlM_cons, List.foldlM_cons]
    exact (steps.1 left right here).bind fun _ _ there => ih steps.2 there

end Agree

namespace Domain

variable {ε : Type}

def SameElements (first second : Domain ε) : Prop := ∀ e, e ∈ first.elements ↔ e ∈ second.elements

theorem SameElements.symm {first second : Domain ε} (same : first.SameElements second) :
    second.SameElements first :=
  fun e => (same e).symm

theorem SameElements.size_eq {first second : Domain ε} (same : first.SameElements second) :
    first.size = second.size :=
  ((List.perm_ext_iff_of_nodup first.distinct second.distinct).mpr same).length_eq

variable [DecidableEq ε]

structure Matches (first second : Domain ε) (left right : Fact) : Prop where
  width : left.width = first.size
  widthToo : right.width = second.size
  elements : ∀ e i j, first.indexOf? e = some i → second.indexOf? e = some j → (i ∈ left ↔ j ∈ right)

section Elements

variable {first second : Domain ε} (same : first.SameElements second)

include same

theorem SameElements.exists_place {e : ε} {i : Nat} (place : first.indexOf? e = some i) :
    ∃ j, second.indexOf? e = some j := by
  rw [← Option.isSome_iff_exists, second.indexOf?_isSome_iff, ← same e,
    ← first.indexOf?_isSome_iff, place]
  rfl

/-- An element is missing from both domains or has a number in both. -/
theorem SameElements.places (e : ε) :
    (first.indexOf? e = none ∧ second.indexOf? e = none) ∨
      ∃ i j, first.indexOf? e = some i ∧ second.indexOf? e = some j := by
  cases place : first.indexOf? e with
  | some i =>
    obtain ⟨j, other⟩ := same.exists_place place
    exact Or.inr ⟨i, j, rfl, other⟩
  | none =>
    cases other : second.indexOf? e with
    | none => exact Or.inl ⟨rfl, rfl⟩
    | some j =>
      obtain ⟨i, impossible⟩ := same.symm.exists_place other
      cases place.symm.trans impossible

omit same in
theorem exists_element {domain : Domain ε} {i : Nat} (inside : i < domain.size) :
    ∃ e, domain.indexOf? e = some i :=
  ⟨domain.elements[i], (domain.indexOf?_eq_some_iff _ i).mpr (List.getElem?_eq_getElem inside)⟩

variable {left right more moreToo : Fact}

omit same in
theorem Matches.symm (here : first.Matches second left right) : second.Matches first right left :=
  ⟨here.widthToo, here.width, fun e i j place other => (here.elements e j i other place).symm⟩

/-- Facts differ over the one domain exactly if they differ over the other. -/
theorem Matches.eq_iff (here : first.Matches second left right)
    (there : first.Matches second more moreToo) : left = more ↔ right = moreToo := by
  have forth : ∀ (first second : Domain ε) (left right more moreToo : Fact),
      first.SameElements second → first.Matches second left right →
      first.Matches second more moreToo → right = moreToo → left = more := by
    rintro first second left right more _ same here there rfl
    refine Fact.ext_mem (here.width.trans there.width.symm) fun i => ?_
    by_cases inside : i < first.size
    · obtain ⟨e, place⟩ := exists_element inside
      obtain ⟨j, other⟩ := same.exists_place place
      exact (here.elements e i j place other).trans (there.elements e i j place other).symm
    · constructor
      · exact fun member => absurd (here.width ▸ Fact.lt_width member) inside
      · exact fun member => absurd (there.width ▸ Fact.lt_width member) inside
  constructor
  · exact forth second first right left moreToo more same.symm here.symm there.symm
  · exact forth first second left right more moreToo same here there

/-- Facts that match are decoded to the same elements. -/
theorem Matches.decode (here : first.Matches second left right) :
    Agree (fun these those => ∀ e, e ∈ these ↔ e ∈ those) (first.decode left)
      (second.decode right) := by
  have decoded : first.decode left = .ok (left.toList.filterMap first.element?) := by
    rw [Domain.decode, if_pos here.width.le]
  have decodedToo : second.decode right = .ok (right.toList.filterMap second.element?) := by
    rw [Domain.decode, if_pos here.widthToo.le]
  refine ⟨_, _, decoded, decodedToo, fun e => ?_⟩
  rw [mem_decode decoded, mem_decode decodedToo]
  simp only [← indexOf?_eq_some_iff]
  rcases same.places e with ⟨none, noneToo⟩ | ⟨i, j, place, other⟩
  · simp [none, noneToo]
  · have exact := here.elements e i j place other
    simp [place, other, exact]

end Elements

end Domain

/-- One change of a fact: of one element, which is passed over if the domain does not have it. -/
inductive Edit (ε : Type) where
  | insert (e : ε)
  | erase (e : ε)

namespace Recipe

inductive Level where
  | empty
  | full

inductive Meet where
  | union
  | inter

end Recipe

/-- Operators that do not see how elements are numbered. -/
structure Recipe (ι ε : Type) where
  collect : ι → List ε
  initial : Recipe.Level
  boundary : Recipe.Level
  meet : Recipe.Meet
  edits : ι → List (Edit ε)

def Recipe.Level.fact {ε : Type} (domain : Domain ε) : Recipe.Level → Fact
  | empty => domain.emptyFact
  | full => domain.fullFact

def Recipe.Meet.fact {ε : Type} (domain : Domain ε) (facts : List Fact) :
    Recipe.Meet → Except Fault Fact
  | union => Fact.unionOf domain.size facts
  | inter => Fact.interOf domain.size facts

section Elements

variable {ε : Type} [DecidableEq ε]

def Edit.apply (domain : Domain ε) (fact : Fact) : Edit ε → Except Fault Fact
  | insert e => fact.insertAll (domain.indexOf? e).toList
  | erase e => fact.eraseAll (domain.indexOf? e).toList

def Recipe.transfer {ι : Type} (recipe : Recipe ι ε) (domain : Domain ε) (inst : ι) (input : Fact) :
    Except Fault Fact :=
  (recipe.edits inst).foldlM (fun fact edit => edit.apply domain fact) input

namespace Domain.Matches

variable {first second : Domain ε} {left right : Fact}

theorem level (first second : Domain ε) (level : Recipe.Level) :
    first.Matches second (level.fact first) (level.fact second) := by
  cases level with
  | empty => exact ⟨rfl, rfl, fun _ i j _ _ => by simp [Recipe.Level.fact, Domain.emptyFact]⟩
  | full =>
    refine ⟨rfl, rfl, fun _ i j place other => ?_⟩
    simp [Recipe.Level.fact, Domain.fullFact, lt_size_of_indexOf? place, lt_size_of_indexOf? other]

/-- Looked up by one element, the number of another is found only if they are the same. -/
theorem mem_place_iff {domain : Domain ε} {e other : ε} {i : Nat}
    (place : domain.indexOf? other = some i) :
    i ∈ (domain.indexOf? e).toList ↔ e = other := by
  rw [Option.mem_toList]
  constructor
  · exact fun found => eq_of_indexOf? found place
  · rintro rfl
    exact place

theorem edit (here : first.Matches second left right) (edit : Edit ε) :
    Agree (first.Matches second) (edit.apply first left) (edit.apply second right) := by
  have inside : ∀ (domain : Domain ε) (fact : Fact), fact.width = domain.size →
      ∀ e, ∀ i ∈ (domain.indexOf? e).toList, i < fact.width := by
    intro domain fact width e i member
    rw [width]
    exact lt_size_of_indexOf? (Option.mem_toList.mp member)
  cases edit with
  | insert e =>
    obtain ⟨result, ran, width, members⟩ := Fact.insertAll_of_lt (inside first left here.width e)
    obtain ⟨resultToo, ranToo, widthToo, membersToo⟩ :=
      Fact.insertAll_of_lt (inside second right here.widthToo e)
    refine ⟨_, _, ran, ranToo, width.trans here.width, widthToo.trans here.widthToo, ?_⟩
    intro other i j place placeToo
    rw [members, membersToo, here.elements other i j place placeToo, mem_place_iff place,
      mem_place_iff placeToo]
  | erase e =>
    obtain ⟨result, ran, width, members⟩ := Fact.eraseAll_of_lt (inside first left here.width e)
    obtain ⟨resultToo, ranToo, widthToo, membersToo⟩ :=
      Fact.eraseAll_of_lt (inside second right here.widthToo e)
    refine ⟨_, _, ran, ranToo, width.trans here.width, widthToo.trans here.widthToo, ?_⟩
    intro other i j place placeToo
    rw [members, membersToo, here.elements other i j place placeToo, mem_place_iff place,
      mem_place_iff placeToo]

theorem transfer {ι : Type} (here : first.Matches second left right) (recipe : Recipe ι ε)
    (inst : ι) :
    Agree (first.Matches second) (recipe.transfer first inst left)
      (recipe.transfer second inst right) :=
  Agree.foldlM (fun edit _ _ _ there => there.edit edit) here

section Lists

variable {facts factsToo : List Fact} (here : List.Forall₂ (first.Matches second) facts factsToo)

include here

theorem widths : (∀ fact ∈ facts, fact.width = first.size) ∧
    ∀ fact ∈ factsToo, fact.width = second.size := by
  induction here with
  | nil => simp
  | cons head _ ih => simpa [head.width, head.widthToo] using ih

variable {e : ε} {i j : Nat} (place : first.indexOf? e = some i)
  (placeToo : second.indexOf? e = some j)

include place placeToo

theorem exists_mem_iff : (∃ fact ∈ facts, i ∈ fact) ↔ ∃ fact ∈ factsToo, j ∈ fact := by
  induction here with
  | nil => simp
  | cons head _ ih => simp [head.elements e i j place placeToo, ih]

theorem forall_mem_iff : (∀ fact ∈ facts, i ∈ fact) ↔ ∀ fact ∈ factsToo, j ∈ fact := by
  induction here with
  | nil => simp
  | cons head _ ih => simp [head.elements e i j place placeToo, ih]

end Lists

theorem meet {facts factsToo : List Fact}
    (here : List.Forall₂ (first.Matches second) facts factsToo) (meet : Recipe.Meet) :
    Agree (first.Matches second) (meet.fact first facts) (meet.fact second factsToo) := by
  obtain ⟨sized, sizedToo⟩ := widths here
  cases meet with
  | union =>
    obtain ⟨result, ran, width, members⟩ := Fact.unionOf_of_width sized
    obtain ⟨resultToo, ranToo, widthToo, membersToo⟩ := Fact.unionOf_of_width sizedToo
    refine ⟨_, _, ran, ranToo, width, widthToo, fun e i j place placeToo => ?_⟩
    rw [members, membersToo, exists_mem_iff here place placeToo]
  | inter =>
    obtain ⟨result, ran, width, members⟩ := Fact.interOf_of_width sized
    obtain ⟨resultToo, ranToo, widthToo, membersToo⟩ := Fact.interOf_of_width sizedToo
    refine ⟨_, _, ran, ranToo, width, widthToo, fun e i j place placeToo => ?_⟩
    rw [members, membersToo, forall_mem_iff here place placeToo]
    simp [lt_size_of_indexOf? place, lt_size_of_indexOf? placeToo]

end Domain.Matches

end Elements

structure Client.Obeys {σ β ι ν ε : Type} [DecidableEq ε] (client : Client σ β ι ν ε)
    (graph : FlowGraph β ι ν) (recipe : Recipe ι ε) : Prop where
  collect : ∀ inst, (client.collect graph inst).Answers (recipe.collect inst)
  initial : ∀ domain store,
    (client.initial ⟨graph, domain, store⟩).Answers (recipe.initial.fact domain)
  boundary : ∀ domain store,
    (client.boundary ⟨graph, domain, store⟩).Answers (recipe.boundary.fact domain)
  meet : ∀ domain store block neighbors memory,
    ((client.meet ⟨graph, domain, store⟩ block neighbors).run memory).1 =
      recipe.meet.fact domain (neighbors.map Neighbor.fact)
  transfer : ∀ domain store inst input memory,
    ((client.transfer ⟨graph, domain, store⟩ inst input).run memory).1 =
      recipe.transfer domain inst input

namespace Recipe

variable {β ι ν : Type}

inductive Rule where
  | insertDefinition
  | eraseDefinition
  | insertOperands
  | eraseOperands

def Level.start : Level → Script.Start
  | empty => .empty
  | full => .full

def Meet.script : Meet → Script.Meet
  | union => .union
  | inter => .inter

def Rule.action : Rule → Script.Action
  | insertDefinition => .insertDefinition
  | eraseDefinition => .eraseDefinition
  | insertOperands => .insertOperands
  | eraseOperands => .eraseOperands

def Rule.edits (graph : FlowGraph β ι ν) (inst : ι) : Rule → List (Edit ν)
  | insertDefinition => (graph.definition inst).toList.map .insert
  | eraseDefinition => (graph.definition inst).toList.map .erase
  | insertOperands => (graph.operands inst).map .insert
  | eraseOperands => (graph.operands inst).map .erase

def ofRules (graph : FlowGraph β ι ν) (sources : List Script.Source) (initial boundary : Level)
    (meet : Meet) (rules : List Rule) : Recipe ι ν where
  collect := fun inst => sources.flatMap (Script.Source.elements graph inst)
  initial := initial
  boundary := boundary
  meet := meet
  edits := fun inst => rules.flatMap (Rule.edits graph inst)

variable [DecidableEq ν]

/-- Edits one by one are one change of all the numbers that are found. -/
theorem foldlM_edits {domain : Domain ν} {make : ν → Edit ν} {act : Fact → Nat → Except Fault Fact}
    (does : ∀ e fact, (make e).apply domain fact = (domain.indexOf? e).toList.foldlM act fact)
    (elements : List ν) (fact : Fact) :
    (elements.map make).foldlM (fun fact edit => edit.apply domain fact) fact =
      (elements.filterMap domain.indexOf?).foldlM act fact := by
  induction elements generalizing fact with
  | nil => rfl
  | cons e rest ih =>
    rw [List.map_cons, List.foldlM_cons, does]
    cases place : domain.indexOf? e with
    | none => simp [place, ih]
    | some i => simp [place, ih]

theorem foldlM_rule [DecidableEq ι] (cx : Context β ι ν ν) (inst : ι) (fact : Fact) (rule : Rule) :
    rule.action.apply cx inst fact =
      .ofExcept ((rule.edits cx.graph inst).foldlM (fun fact edit => edit.apply cx.domain fact)
        fact) := by
  have found : cx.definitionIndex inst =
      (cx.graph.definition inst).toList.filterMap cx.domain.indexOf? := by
    unfold Context.definitionIndex
    cases cx.graph.definition inst with
    | none => rfl
    | some value => cases place : cx.domain.indexOf? value <;> simp [place]
  have inserts : ∀ elements : List ν, fact.insertAll (elements.filterMap cx.domain.indexOf?) =
      (elements.map Edit.insert).foldlM (fun fact edit => edit.apply cx.domain fact) fact :=
    fun elements => (foldlM_edits (fun _ _ => rfl) elements fact).symm
  have erases : ∀ elements : List ν, fact.eraseAll (elements.filterMap cx.domain.indexOf?) =
      (elements.map Edit.erase).foldlM (fun fact edit => edit.apply cx.domain fact) fact :=
    fun elements => (foldlM_edits (fun _ _ => rfl) elements fact).symm
  cases rule with
  | insertDefinition => simp only [Rule.action, Script.Action.apply, found, inserts, Rule.edits]
  | eraseDefinition => simp only [Rule.action, Script.Action.apply, found, erases, Rule.edits]
  | insertOperands =>
    simp only [Rule.action, Script.Action.apply, Context.operandIndices, inserts, Rule.edits]
  | eraseOperands =>
    simp only [Rule.action, Script.Action.apply, Context.operandIndices, erases, Rule.edits]

theorem foldlM_rules [DecidableEq ι] (cx : Context β ι ν ν) (inst : ι) (fact : Fact)
    (rules : List Rule) :
    (rules.map Rule.action).foldlM (fun fact action => action.apply cx inst fact) fact =
      (.ofExcept ((rules.flatMap (Rule.edits cx.graph inst)).foldlM
        (fun fact edit => edit.apply cx.domain fact) fact) : Call Nat Fact) := by
  induction rules generalizing fact with
  | nil => rfl
  | cons rule rest ih =>
    rw [List.map_cons, List.foldlM_cons, foldlM_rule, List.flatMap_cons, List.foldlM_append]
    cases (rule.edits cx.graph inst).foldlM (fun fact edit => edit.apply cx.domain fact) fact with
    | error fault => rfl
    | ok next => exact ih next

/-- A script that keeps to the rules obeys its recipe. -/
theorem script_obeys [DecidableEq ι] [Shown ν] (direction : Direction) (graph : FlowGraph β ι ν)
    (sources : List Script.Source) (initial boundary : Level) (meet : Meet) (rules : List Rule) :
    (Script.client ⟨direction, sources, initial.start, boundary.start, meet.script,
      rules.map Rule.action⟩ : Client Nat β ι ν ν).Obeys graph
        (ofRules graph sources initial boundary meet rules) where
  collect := fun _ _ => rfl
  initial := fun _ _ _ => by cases initial <;> rfl
  boundary := fun _ _ _ => by cases boundary <;> rfl
  meet := fun _ _ _ _ _ => by cases meet <;> rfl
  transfer := fun domain store inst input memory => by
    simp only [Script.client, foldlM_rules, Call.run_ofExcept]
    rfl

end Recipe

end Dataflow
