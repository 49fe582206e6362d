import Dataflow.Proofs.Fallible
import Dataflow.Proofs.Solver.Handout

/-! The listing of results. No element that a fact names lies outside the table of names, whatever
graph the listing is made for. On the graph that was analyzed it shows the program line by line, each
instruction with its elements, and in every block one line more for the fact it was entered with,
right before the instruction that a run visits first. -/
namespace Dataflow

variable {σ β ι ν ε : Type}

def Problem.braces (problem : Problem σ β ι ν ε) (elements : List ε) : String :=
  "\x7b" ++ String.join (elements.map fun e => problem.client.elementName problem.graph e ++ ",") ++
    "\x7d"

def FlowGraph.instructionLines (graph : FlowGraph β ι ν) (inst : ι) (shown : String) : String :=
  "Instruction: " ++ graph.render inst ++ "\n\t" ++ shown ++ "\n"

def EntryFact.line (shown : String) : EntryFact → String
  | boundary _ => "BC:\t" ++ shown ++ "\n"
  | meet _ => "MeetOp:\t" ++ shown ++ "\n"

/-- The parts of a block in a listing. The entry comes right before the instruction that is visited
first, and a block without instructions is not shown at all. -/
def Direction.withEntry (entry : String) : Direction → List String → List String
  | _, [] => []
  | forward, first :: rest => entry :: first :: rest
  | backward, lines => lines.dropLast ++ entry :: lines.getLast?.toList

theorem Direction.withEntry_backward (entry : String) (lines : List String) (last : String) :
    backward.withEntry entry (lines ++ [last]) = lines ++ [entry, last] := by
  have shown : backward.withEntry entry (lines ++ [last]) =
      (lines ++ [last]).dropLast ++ entry :: (lines ++ [last]).getLast?.toList := by
    cases lines <;> rfl
  rw [shown, List.dropLast_concat, List.getLast?_concat]
  rfl

variable [DecidableEq ι]

def Direction.marked (direction : Direction) (graph : FlowGraph β ι ν) (entry : String)
    (line : ι → String) (block : β) : String :=
  String.join ((graph.instructions block).map fun inst =>
    (if (direction.instructionOrder graph block).head? = some inst then entry else "") ++ line inst)

theorem join_marked {before after : List ι} {place : ι}
    (distinct : (before ++ place :: after).Nodup) (entry : String) (line : ι → String) :
    String.join ((before ++ place :: after).map fun inst =>
        (if some place = some inst then entry else "") ++ line inst) =
      String.join (before.map line ++ entry :: line place :: after.map line) := by
  -- the place is neither among the instructions before it nor among those after it
  have absent := (List.nodup_cons.mp (List.nodup_middle.mp distinct)).1
  have unmarked : ∀ part : List ι, place ∉ part → part.map (fun inst =>
      (if some place = some inst then entry else "") ++ line inst) = part.map line := by
    intro part missing
    refine List.map_congr_left fun inst member => ?_
    have different : some place ≠ some inst := by
      rintro ⟨⟩
      exact missing member
    rw [if_neg different, String.empty_append]
  rw [List.mem_append, not_or] at absent
  rw [List.map_append, List.map_cons, unmarked before absent.1, unmarked after absent.2, if_pos rfl]
  simp only [String.join_append, String.join_cons, String.append_assoc]

/-- Where no instruction is repeated, the text is put in once, and it is a part of its own. -/
theorem Direction.marked_eq (direction : Direction) {graph : FlowGraph β ι ν} {block : β}
    (distinct : (graph.instructions block).Nodup) (entry : String) (line : ι → String) :
    direction.marked graph entry line block =
      String.join (direction.withEntry entry ((graph.instructions block).map line)) := by
  unfold marked
  cases direction with
  | forward =>
    rw [instructionOrder]
    cases listed : graph.instructions block with
    | nil => rfl
    | cons first rest =>
      rw [listed] at distinct
      exact join_marked (show ([] ++ first :: rest).Nodup from distinct) entry line
  | backward =>
    rw [instructionOrder, List.head?_reverse]
    rcases List.eq_nil_or_concat' (graph.instructions block) with none | ⟨before, last, listed⟩
    · rw [none]
      rfl
    · rw [listed] at distinct ⊢
      rw [List.getLast?_concat, join_marked distinct, List.map_append]
      exact congrArg String.join (withEntry_backward entry (before.map line) (line last)).symm

omit [DecidableEq ι] in
theorem join_flatMap (parts : β → List String) (blocks : List β) :
    String.join (blocks.flatMap parts) =
      String.join (blocks.map fun block => String.join (parts block)) := by
  induction blocks with
  | nil => rfl
  | cons block rest ih =>
    rw [List.flatMap_cons, List.map_cons, String.join_append, String.join_cons, ih]

variable [DecidableEq β]

inductive Problem.Opens (problem : Problem σ β ι ν ε) (results : Results β ι ε) (block : β) :
    String → Prop where
  | entered {entry : EntryFact} {elements : List ε}
      (found : results.entryFact? block = some entry)
      (decoded : results.domain.decode entry.fact = .ok elements) :
      Opens problem results block (entry.line (problem.braces elements))
  | never (absent : results.entryFact? block = none) : Opens problem results block ""

namespace Problem.HandsOut

variable [DecidableEq ε] {problem : Problem σ β ι ν ε} {results : Results β ι ε}
  (handed : problem.HandsOut results)

include handed

theorem nameOf_eq {i : Nat} {e : ε} (found : results.domain.element? i = some e) :
    results.nameOf i = .ok (problem.client.elementName problem.graph e) := by
  have named : results.names[i]? = some (problem.client.elementName problem.graph e) := by
    rw [handed.names, List.getElem?_toArray, List.getElem?_map]
    exact congrArg (Option.map _) found
  rw [Results.nameOf, named]

/-- Every number below the size of the domain has a name. -/
theorem mapM_nameOf {places : List Nat} (inside : ∀ i ∈ places, i < results.domain.size) :
    places.mapM results.nameOf = .ok ((places.filterMap results.domain.element?).map
      (problem.client.elementName problem.graph)) := by
  induction places with
  | nil => rfl
  | cons i rest ih =>
    obtain ⟨bound, others⟩ := List.forall_mem_cons.mp inside
    obtain ⟨e, found⟩ : ∃ e, results.domain.element? i = some e :=
      ⟨_, List.getElem?_eq_getElem bound⟩
    rw [List.mapM_cons, handed.nameOf_eq found, ih others, List.filterMap_cons_some found]
    rfl

theorem factText_eq {fact : Fact} {elements : List ε} (sized : fact.width = results.domain.size)
    (decoded : results.domain.decode fact = .ok elements) :
    results.factText fact = .ok (problem.braces elements) := by
  rw [Domain.decode, if_pos sized.le] at decoded
  cases decoded
  have inside : ∀ i ∈ fact.toList, i < results.domain.size := fun i member =>
    (Fact.lt_width ((Fact.mem_toList fact i).mp member)).trans_eq sized
  rw [Results.factText, handed.mapM_nameOf inside]
  simp only [braces, bind, Except.bind, pure, Except.pure, List.map_map, Function.comp_def]

theorem entryText_eq {entry : EntryFact} {elements : List ε}
    (sized : entry.fact.width = results.domain.size)
    (decoded : results.domain.decode entry.fact = .ok elements) :
    results.entryText entry = .ok (entry.line (problem.braces elements)) := by
  have shown := handed.factText_eq sized decoded
  cases entry with
  | boundary fact =>
    rw [EntryFact.fact] at shown
    rw [Results.entryText, shown]
    rfl
  | meet fact =>
    rw [EntryFact.fact] at shown
    rw [Results.entryText, shown]
    rfl

/-- What is shown of an instruction without a fact are the braces of no elements. -/
theorem shows_elements {inst : ι} {elements : List ε}
    (answered : results.elementsOf inst = .ok elements) :
    (∃ fact, results.factOf? inst = some fact ∧
      results.factText fact = .ok (problem.braces elements)) ∨
    results.factOf? inst = none ∧ problem.braces elements = "\x7b\x7d" := by
  unfold Results.elementsOf at answered
  cases stored : results.factOf? inst with
  | some fact =>
    rw [stored] at answered
    exact Or.inl ⟨fact, rfl, handed.factText_eq (handed.width_fact stored) answered⟩
  | none =>
    rw [stored] at answered
    cases answered
    exact Or.inr ⟨rfl, rfl⟩

/-- An instruction is shown with its elements, after what opens the block if it is visited first. -/
theorem instructionText_eq (graph : FlowGraph β ι ν) {block : β} {inst : ι} {opening : String}
    {elements : List ε} (opens : problem.Opens results block opening)
    (answered : results.elementsOf inst = .ok elements) :
    results.instructionText graph block inst = .ok
      ((if results.firstVisited? graph block = some inst then opening else "") ++
        graph.instructionLines inst (problem.braces elements)) := by
  unfold FlowGraph.instructionLines
  have shows := handed.shows_elements answered
  cases opens with
  | entered found decoded =>
    have opening := handed.entryText_eq (handed.width_entry found) decoded
    rcases shows with ⟨fact, stored, shown⟩ | ⟨stored, shown⟩ <;>
      simp only [Results.instructionText, found, opening, stored, shown] <;>
      split <;> simp only [bind, Except.bind, pure, Except.pure, String.append_assoc]
  | never absent =>
    rcases shows with ⟨fact, stored, shown⟩ | ⟨stored, shown⟩ <;>
      simp only [Results.instructionText, absent, stored, shown, ite_self, bind, Except.bind, pure,
        Except.pure, String.append_assoc]

theorem dump_eq (graph : FlowGraph β ι ν) {openings : β → String} {elements : ι → List ε}
    (opens : ∀ block, problem.Opens results block (openings block))
    (answered : ∀ inst, results.elementsOf inst = .ok (elements inst)) :
    results.dump graph = .ok (Results.banner ++ String.join (graph.blocks.map fun block =>
      results.direction.marked graph (openings block)
        (fun inst => graph.instructionLines inst (problem.braces (elements inst))) block)) := by
  have blocks : ∀ block ∈ graph.blocks, results.blockText graph block =
      .ok (results.direction.marked graph (openings block)
        (fun inst => graph.instructionLines inst (problem.braces (elements inst))) block) := by
    intro block _
    rw [Results.blockText, Fallible.mapM_eq_map fun inst _ =>
      handed.instructionText_eq graph (opens block) (answered inst)]
    rfl
  rw [Results.dump, Fallible.mapM_eq_map blocks]
  rfl

theorem exists_opens (block : β) : ∃ opening, problem.Opens results block opening := by
  cases found : results.entryFact? block with
  | none => exact ⟨"", .never found⟩
  | some entry =>
    have sized := handed.width_entry found
    exact ⟨_, .entered found (results.domain.decode_eq_filter sized.le)⟩

/-- A listing can be made for every graph. -/
theorem exists_dump (graph : FlowGraph β ι ν) : ∃ text, results.dump graph = .ok text := by
  choose openings opens using handed.exists_opens
  choose elements answered _ using handed.exists_elements
  exact ⟨_, handed.dump_eq graph opens answered⟩

/-- A listed block has been entered, and that is what opens it. -/
theorem exists_entered {block : β} {opening : String}
    (opens : problem.Opens results block opening) :
    ∃ entry entered, block ∈ problem.graph.blocks → results.entryFact? block = some entry ∧
      results.domain.decode entry.fact = .ok entered ∧
      entered.Sublist results.domain.elements ∧
      opening = entry.line (problem.braces entered) := by
  cases opens with
  | @entered entry elements found decoded =>
    have ordered : elements.Sublist results.domain.elements := by
      rw [results.domain.decode_eq_filter (handed.width_entry found).le] at decoded
      cases decoded
      exact List.filter_sublist
    exact ⟨entry, elements, fun _ => ⟨found, decoded, ordered, rfl⟩⟩
  | never absent =>
    -- any entry will do: a block that was never entered is not listed
    refine ⟨.boundary results.domain.emptyFact, [], fun listed => ?_⟩
    obtain ⟨entry, found⟩ := handed.exists_entry listed
    cases absent.symm.trans found

end Problem.HandsOut

/-- The text shows the graph that was analyzed, block by block and instruction by instruction. Under
each instruction stand its elements, and each block that has instructions shows once how it was
entered; the names of elements come in the order of their numbers. -/
def Problem.Listing (problem : Problem σ β ι ν ε) (results : Results β ι ε) (text : String) : Prop :=
  ∃ (elements : ι → List ε) (entries : β → EntryFact) (entered : β → List ε),
    (∀ inst, results.elementsOf inst = .ok (elements inst) ∧
      (elements inst).Sublist results.domain.elements) ∧
    (∀ block ∈ problem.graph.blocks, results.entryFact? block = some (entries block) ∧
      results.domain.decode (entries block).fact = .ok (entered block) ∧
      (entered block).Sublist results.domain.elements) ∧
    text = Results.banner ++
      String.join (problem.graph.blocks.flatMap fun block => problem.client.direction.withEntry
        ((entries block).line (problem.braces (entered block)))
        ((problem.graph.instructions block).map fun inst =>
          problem.graph.instructionLines inst (problem.braces (elements inst))))

/-- A listing can be made of all results that are handed out, for whatever graph, and on the graph
that was analyzed it is faithful. -/
theorem listing_total_and_faithful [DecidableEq ε] {problem : Problem σ β ι ν ε}
    {results : Results β ι ε} (handed : problem.HandsOut results) :
    (∀ graph : FlowGraph β ι ν, ∃ text, results.dump graph = .ok text) ∧
    ∃ text, results.dump problem.graph = .ok text ∧ problem.Listing results text := by
  choose elements answered ordered _ using handed.exists_elements
  choose openings opens using handed.exists_opens
  choose entries entered known using fun block => handed.exists_entered (opens block)
  refine ⟨handed.exists_dump, _, handed.dump_eq problem.graph opens answered, elements, entries,
    entered, fun inst => ⟨answered inst, ordered inst⟩, fun block listed => ?_, ?_⟩
  · obtain ⟨found, decoded, ordered, _⟩ := known block listed
    exact ⟨found, decoded, ordered⟩
  · rw [join_flatMap, handed.direction]
    refine congrArg (fun parts => Results.banner ++ String.join parts)
      (List.map_congr_left fun block listed => ?_)
    obtain ⟨_, _, _, opening⟩ := known block listed
    rw [← opening]
    exact problem.client.direction.marked_eq
      (FlowGraph.instructions_nodup handed.distinct listed) _ _

theorem listing_total_and_faithful_on_loops :
    ∃ results, (liveVariables.on Table.loops.graph .standard).HandsOut results ∧
      (∀ graph : FlowGraph Nat Nat Nat, ∃ text, results.dump graph = .ok text) ∧
      ∃ text, results.dump Table.loops.graph = .ok text ∧
        (liveVariables.on Table.loops.graph .standard).Listing results text := by
  obtain ⟨results, handed⟩ := Liveness.handsOut_on_loops
  exact ⟨results, handed, listing_total_and_faithful handed⟩

end Dataflow
