import Dataflow.Fact.Cursor

/-! Laws of facts. Enumerating a fact gives its members, each once and in ascending order,
as many as are counted; the questions asked of facts are answered as on sets; and folding
inserts, erasures and unions does to the members what each name says. -/
namespace Dataflow

namespace Words

@[simp] theorem bit_nil (i : Nat) : bit [] i = false := by simp [bit]

theorem bit_cons (word : Word) (rest : List Word) (i : Nat) :
    bit (word :: rest) i = if i < 64 then word.getLsbD i else bit rest (i - 64) := by
  unfold bit
  split
  · next low => simp [Nat.div_eq_of_lt low, Nat.mod_eq_of_lt low]
  · next high =>
    have place : i / 64 = (i - 64) / 64 + 1 := by omega
    have offset : i % 64 = (i - 64) % 64 := by omega
    rw [place, offset, List.getD_cons_succ]

end Words

namespace Word

private theorem countP_and_ne {p : Nat → Bool} {k : Nat} {places : List Nat}
    (distinct : places.Nodup) (member : k ∈ places) (set : p k = true) :
    places.countP (fun j => p j && decide (j ≠ k)) + 1 = places.countP p := by
  induction places with
  | nil => simp at member
  | cons j rest induction =>
    obtain ⟨absent, distinct⟩ := List.nodup_cons.mp distinct
    by_cases same : j = k
    · subst same
      have others : rest.countP (fun i => p i && decide (i ≠ j)) = rest.countP p := by
        apply List.countP_congr
        intro i inside
        have different : i ≠ j := fun h => absent (h ▸ inside)
        simp [different]
      simp only [List.countP_cons, others]
      simp [set]
    · have inside : k ∈ rest := (List.mem_cons.mp member).resolve_left fun h => same h.symm
      have step := induction distinct inside
      simp only [List.countP_cons, ne_eq, same, not_false_eq_true, decide_true,
        Bool.and_true] at step ⊢
      omega

theorem count_clearLowest {w : Word} {k : Nat} (lowest : w.IsLowest k) :
    w.clearLowest.count + 1 = w.count := by
  have bits : w.clearLowest.getLsbD = fun j => w.getLsbD j && decide (j ≠ k) := by
    funext j
    exact getLsbD_clearLowest lowest j
  unfold count
  rw [bits]
  exact countP_and_ne List.nodup_range (List.mem_range.mpr (BitVec.lt_of_getLsbD lowest.1)) lowest.1

theorem count_le (w : Word) : w.count ≤ 64 := by
  simpa [count] using List.countP_le_length (p := w.getLsbD) (l := List.range 64)

@[simp] theorem count_zero : count 0#64 = 0 := by decide

end Word

namespace Fact

namespace Cursor

/-- The positions that are still to come. -/
def Holds (cursor : Cursor) (i : Nat) : Prop :=
  cursor.base ≤ i ∧ Words.bit (cursor.word :: cursor.rest) (i - cursor.base) = true

def remaining (cursor : Cursor) : Nat := Words.count (cursor.word :: cursor.rest)

theorem holds_iff (cursor : Cursor) (i : Nat) : cursor.Holds i ↔
    cursor.base ≤ i ∧ if i - cursor.base < 64 then cursor.word.getLsbD (i - cursor.base) = true
      else Words.bit cursor.rest (i - cursor.base - 64) = true := by
  unfold Holds
  rw [Words.bit_cons]
  split <;> rfl

/-- Leaving a zero word changes nothing. -/
theorem holds_zero_word (base : Nat) (next : Word) (rest : List Word) (i : Nat) :
    Holds ⟨base, 0#64, next :: rest⟩ i ↔ Holds ⟨base + 64, next, rest⟩ i := by
  rw [holds_iff]
  simp only [Holds]
  by_cases near : i - base < 64
  · simp only [near, if_true, BitVec.getLsbD_zero]
    constructor
    · rintro ⟨_, impossible⟩
      exact absurd impossible (by decide)
    · rintro ⟨bound, _⟩
      omega
  · have same : i - (base + 64) = i - base - 64 := by omega
    simp only [near, if_false, same]
    constructor
    · rintro ⟨_, set⟩
      exact ⟨by omega, set⟩
    · rintro ⟨_, set⟩
      exact ⟨by omega, set⟩

/-- At the end of a fact nothing is left, and the cursor stays where it is. -/
theorem scan_none {base : Nat} {word : Word} {rest : List Word} {after : Cursor}
    (ended : scan base word rest = (none, after)) :
    (∀ i, ¬ Holds ⟨base, word, rest⟩ i) ∧ remaining ⟨base, word, rest⟩ = 0 ∧
      after.next = (none, after) := by
  induction rest generalizing base word with
  | nil =>
    unfold scan at ended
    cases lowest : word.lowest? with
    | some k => simp [lowest] at ended
    | none =>
      have zero := (Word.lowest?_eq_none_iff word).mp lowest
      subst zero
      simp only [lowest, Prod.mk.injEq, true_and] at ended
      subst ended
      refine ⟨fun i holds => ?_, by simp [remaining], by simp [next, scan, lowest]⟩
      rw [holds_iff] at holds
      split at holds <;> simp at holds
  | cons following rest induction =>
    unfold scan at ended
    cases lowest : word.lowest? with
    | some k => simp [lowest] at ended
    | none =>
      have zero := (Word.lowest?_eq_none_iff word).mp lowest
      subst zero
      simp only [lowest] at ended
      obtain ⟨nothing, none_left, stays⟩ := induction ended
      refine ⟨fun i holds => nothing i ((holds_zero_word base following rest i).mp holds), ?_, stays⟩
      simpa [remaining] using none_left

/-- The step within a word that has a bit left. -/
private theorem scan_here {base : Nat} {word : Word} {rest : List Word} {k i : Nat} {after : Cursor}
    (lowest : word.lowest? = some k)
    (found : base + k = i ∧ (⟨base, word.clearLowest, rest⟩ : Cursor) = after) :
    Holds ⟨base, word, rest⟩ i ∧ (∀ j, Holds ⟨base, word, rest⟩ j → i ≤ j) ∧
      (∀ j, after.Holds j ↔ Holds ⟨base, word, rest⟩ j ∧ j ≠ i) ∧
      after.remaining + 1 = remaining ⟨base, word, rest⟩ := by
  obtain ⟨rfl, rfl⟩ := found
  have isLowest := (Word.lowest?_eq_some_iff word k).mp lowest
  have bound : k < 64 := BitVec.lt_of_getLsbD isLowest.1
  refine ⟨?_, fun j holds => ?_, fun j => ?_, ?_⟩
  · rw [holds_iff]
    simpa [bound] using isLowest.1
  · rw [holds_iff] at holds
    have after : base ≤ j := holds.1
    apply Nat.le_of_not_lt
    intro before
    have near : j - base < 64 := by omega
    have set := holds.2
    simp only [near, if_true] at set
    exact absurd (set.symm.trans (isLowest.2 (j - base) (by omega))) (by decide)
  · rw [holds_iff, holds_iff]
    simp only
    by_cases near : j - base < 64
    · simp only [near, if_true, Word.getLsbD_clearLowest isLowest, Bool.and_eq_true,
        decide_eq_true_eq]
      constructor
      · rintro ⟨after, set, different⟩
        exact ⟨⟨after, set⟩, by omega⟩
      · rintro ⟨⟨after, set⟩, different⟩
        exact ⟨after, set, by omega⟩
    · have different : j ≠ base + k := by omega
      simp [near, different]
  · have fewer := Word.count_clearLowest isLowest
    simp only [remaining, Words.count_cons]
    omega

/-- The next position is the least one left, and it alone is taken away. -/
theorem scan_some {base : Nat} {word : Word} {rest : List Word} {i : Nat} {after : Cursor}
    (found : scan base word rest = (some i, after)) :
    Holds ⟨base, word, rest⟩ i ∧ (∀ j, Holds ⟨base, word, rest⟩ j → i ≤ j) ∧
      (∀ j, after.Holds j ↔ Holds ⟨base, word, rest⟩ j ∧ j ≠ i) ∧
      after.remaining + 1 = remaining ⟨base, word, rest⟩ := by
  induction rest generalizing base word with
  | nil =>
    unfold scan at found
    cases lowest : word.lowest? with
    | none => simp [lowest] at found
    | some k => exact scan_here lowest (by simpa [lowest] using found)
  | cons following rest induction =>
    unfold scan at found
    cases lowest : word.lowest? with
    | some k => exact scan_here lowest (by simpa [lowest] using found)
    | none =>
      have zero := (Word.lowest?_eq_none_iff word).mp lowest
      subst zero
      simp only [lowest] at found
      obtain ⟨here, least, others, fewer⟩ := induction found
      refine ⟨(holds_zero_word _ _ _ _).mpr here,
        fun j holds => least j ((holds_zero_word _ _ _ _).mp holds), fun j => ?_, ?_⟩
      · rw [holds_zero_word, others]
      · simpa [remaining] using fewer

theorem remaining_le_span (cursor : Cursor) : cursor.remaining ≤ cursor.span := by
  obtain ⟨base, word, rest⟩ := cursor
  simp only [remaining, span, Words.count_cons]
  have first := Word.count_le word
  induction rest generalizing word with
  | nil => simp only [Words.count_nil, List.length_nil]; omega
  | cons following rest induction =>
    have others := induction following (Word.count_le following)
    simp only [Words.count_cons, List.length_cons] at others ⊢
    omega

/-- All positions left are listed, each once and in ascending order. -/
structure Lists (cursor : Cursor) (positions : List Nat) : Prop where
  members : ∀ i, i ∈ positions ↔ cursor.Holds i
  ascending : positions.Pairwise (· < ·)
  length : positions.length = cursor.remaining

theorem lists_nil {cursor after : Cursor} (ended : cursor.next = (none, after)) :
    cursor.Lists [] := by
  obtain ⟨nothing, none_left, _⟩ := scan_none ended
  exact ⟨fun i => by simpa using nothing i, List.Pairwise.nil, none_left.symm⟩

theorem Lists.cons {cursor after : Cursor} {i : Nat} {positions : List Nat}
    (others : after.Lists positions) (found : cursor.next = (some i, after)) :
    cursor.Lists (i :: positions) := by
  obtain ⟨here, least, left, fewer⟩ := scan_some found
  refine ⟨fun j => ?_, List.pairwise_cons.mpr ⟨fun j member => ?_, others.ascending⟩, ?_⟩
  · rw [List.mem_cons, others.members, left]
    constructor
    · rintro (rfl | ⟨holds, _⟩)
      · exact here
      · exact holds
    · intro holds
      by_cases same : j = i
      · exact Or.inl same
      · exact Or.inr ⟨holds, same⟩
  · obtain ⟨holds, different⟩ := (left j).mp ((others.members j).mp member)
    exact Nat.lt_of_le_of_ne (least j holds) different.symm
  · rw [List.length_cons, others.length]
    exact fewer

/-- As many steps as there are positions left are enough to list them. -/
theorem lists_take {steps : Nat} {cursor : Cursor} (enough : cursor.remaining ≤ steps) :
    cursor.Lists (cursor.take steps) := by
  induction steps generalizing cursor with
  | zero =>
    rcases result : cursor.next with ⟨_ | i, after⟩
    · exact lists_nil result
    · have fewer : after.remaining + 1 = cursor.remaining := (scan_some result).2.2.2
      omega
  | succ steps induction =>
    rcases result : cursor.next with ⟨_ | i, after⟩
    · have listed : cursor.take (steps + 1) = [] := by simp [take, result]
      exact listed ▸ lists_nil result
    · have fewer : after.remaining + 1 = cursor.remaining := (scan_some result).2.2.2
      have listed : cursor.take (steps + 1) = i :: after.take steps := by simp [take, result]
      exact listed ▸ (induction (by omega)).cons result

theorem lists_toList (cursor : Cursor) : cursor.Lists cursor.toList :=
  lists_take cursor.remaining_le_span

end Cursor

theorem cursor_holds (fact : Fact) (i : Nat) : fact.cursor.Holds i ↔ i ∈ fact := by
  unfold cursor
  split
  · next none => simp [Cursor.Holds, Words.bit_cons, mem_def, none]
  · next word rest some => simp [Cursor.Holds, mem_def, some]

theorem cursor_remaining (fact : Fact) : fact.cursor.remaining = fact.count := by
  unfold cursor count
  split
  · next none => simp [Cursor.remaining, none]
  · next word rest some => simp [Cursor.remaining, some]

@[simp] theorem mem_toList (fact : Fact) (i : Nat) : i ∈ fact.toList ↔ i ∈ fact := by
  rw [← cursor_holds]
  exact fact.cursor.lists_toList.members i

theorem toList_pairwise (fact : Fact) : fact.toList.Pairwise (· < ·) :=
  fact.cursor.lists_toList.ascending

theorem length_toList (fact : Fact) : fact.toList.length = fact.count :=
  fact.cursor.lists_toList.length.trans fact.cursor_remaining

theorem isEmpty_iff (fact : Fact) : fact.isEmpty = true ↔ ∀ i, i ∉ fact := by
  have none_set : fact.isEmpty = true ↔ fact.words = Words.zeros fact.width := by
    simp only [isEmpty, List.all_eq_true, beq_iff_eq]
    constructor
    · intro zeros
      exact List.eq_replicate_iff.mpr ⟨fact.stored, zeros⟩
    · intro zeros word member
      rw [zeros] at member
      exact List.eq_of_mem_replicate member
  rw [none_set]
  constructor
  · intro zeros i
    simp [mem_def, zeros]
  · intro absent
    apply Words.eq_of_bit_eq (by rw [fact.stored, Words.length_zeros])
    intro i
    rw [Words.bit_zeros]
    exact Bool.eq_false_iff.mpr (absent i)

theorem isSubset_of_width_eq {left right : Fact} (same : left.width = right.width) :
    ∃ answer, left.isSubset right = .ok answer ∧ (answer = true ↔ ∀ i ∈ left, i ∈ right) := by
  refine ⟨(left.without right same).isEmpty, ?_, ?_⟩
  · rw [isSubset, if_pos same, isEmpty, without, words_zipWords]
    rfl
  · rw [isEmpty_iff]
    constructor
    · intro none_left i member
      have absent := none_left i
      rw [mem_without] at absent
      exact Decidable.not_not.mp fun missing => absent ⟨member, missing⟩
    · intro inside i member
      rw [mem_without] at member
      exact member.2 (inside i member.1)

theorem width_foldl_mark (indices : List Nat) (fact : Fact) :
    (indices.foldl mark fact).width = fact.width := by
  induction indices generalizing fact with
  | nil => rfl
  | cons i rest induction => rw [List.foldl_cons, induction, width_mark]

theorem mem_foldl_mark (indices : List Nat) (fact : Fact) (i : Nat) :
    i ∈ indices.foldl mark fact ↔ i ∈ fact ∨ (i ∈ indices ∧ i < fact.width) := by
  induction indices generalizing fact with
  | nil => simp
  | cons first rest induction =>
    rw [List.foldl_cons, induction, mem_mark, width_mark, List.mem_cons]
    constructor
    · rintro ((member | ⟨rfl, bound⟩) | ⟨member, bound⟩)
      · exact Or.inl member
      · exact Or.inr ⟨Or.inl rfl, bound⟩
      · exact Or.inr ⟨Or.inr member, bound⟩
    · rintro (member | ⟨rfl | member, bound⟩)
      · exact Or.inl (Or.inl member)
      · exact Or.inl (Or.inr ⟨rfl, bound⟩)
      · exact Or.inr ⟨member, bound⟩

theorem insertAll_of_lt {fact : Fact} {indices : List Nat}
    (inside : ∀ i ∈ indices, i < fact.width) :
    ∃ result, fact.insertAll indices = .ok result ∧ result.width = fact.width ∧
      ∀ i, i ∈ result ↔ i ∈ fact ∨ i ∈ indices := by
  induction indices generalizing fact with
  | nil => exact ⟨fact, rfl, rfl, by simp⟩
  | cons i rest induction =>
    have first : i < fact.width := inside i (by simp)
    obtain ⟨result, run, width, members⟩ := @induction (fact.mark i)
      (fun j member => by simpa using inside j (by simp [member]))
    refine ⟨result, ?_, by simpa using width, fun j => ?_⟩
    · rw [insertAll, List.foldlM_cons, insert, if_pos first]
      exact run
    · rw [members, mem_mark, List.mem_cons, or_assoc]
      simp [first]

theorem eraseAll_of_lt {fact : Fact} {indices : List Nat}
    (inside : ∀ i ∈ indices, i < fact.width) :
    ∃ result, fact.eraseAll indices = .ok result ∧ result.width = fact.width ∧
      ∀ i, i ∈ result ↔ i ∈ fact ∧ i ∉ indices := by
  induction indices generalizing fact with
  | nil => exact ⟨fact, rfl, rfl, by simp⟩
  | cons i rest induction =>
    have first : i < fact.width := inside i (by simp)
    obtain ⟨result, run, width, members⟩ := @induction (fact.unmark i)
      (fun j member => by simpa using inside j (by simp [member]))
    refine ⟨result, ?_, by simpa using width, fun j => ?_⟩
    · rw [eraseAll, List.foldlM_cons, erase, if_pos first]
      exact run
    · rw [members, mem_unmark, List.mem_cons, not_or, and_assoc]

/-- Facts of one width can be combined, and a word has changed exactly if the fact has. -/
theorem combine_of_width {op : Word.Bitwise} {left right : Fact} (same : left.width = right.width) :
    combine op left right =
      .ok (zipWords op left right same, decide (zipWords op left right same ≠ left)) := by
  have words : zipWords op left right same = left ↔
      List.zipWith op.word left.words right.words = left.words := by
    rw [← words_zipWords same]
    exact ⟨congrArg Fact.words, ext_words rfl⟩
  rw [combine, dif_pos same, Words.combine_eq (length_words same)]
  simp only [ne_eq, words]

theorem union_of_width {left right : Fact} (same : left.width = right.width) :
    (left.union right).map Prod.fst = .ok (left.join right same) := by
  rw [union, combine_of_width same]
  rfl

theorem inter_of_width {left right : Fact} (same : left.width = right.width) :
    (left.inter right).map Prod.fst = .ok (left.common right same) := by
  rw [inter, combine_of_width same]
  rfl

theorem diff_of_width {left right : Fact} (same : left.width = right.width) :
    (left.diff right).map Prod.fst = .ok (left.without right same) := by
  rw [diff, combine_of_width same]
  rfl

private theorem foldlM_union {start : Fact} {facts : List Fact}
    (same : ∀ fact ∈ facts, fact.width = start.width) :
    ∃ result, facts.foldlM (fun joined fact => (joined.union fact).map Prod.fst) start = .ok result ∧
      result.width = start.width ∧ ∀ i, i ∈ result ↔ i ∈ start ∨ ∃ fact ∈ facts, i ∈ fact := by
  induction facts generalizing start with
  | nil => exact ⟨start, rfl, rfl, by simp⟩
  | cons fact rest induction =>
    have first : start.width = fact.width := (same fact (by simp)).symm
    obtain ⟨result, run, width, members⟩ := @induction (start.join fact first)
      (fun other member => by simpa using same other (by simp [member]))
    refine ⟨result, ?_, by simpa using width, fun i => ?_⟩
    · rw [List.foldlM_cons, union_of_width first]
      exact run
    · rw [members, mem_join, or_assoc]
      simp

theorem unionOf_of_width {width : Nat} {facts : List Fact}
    (same : ∀ fact ∈ facts, fact.width = width) :
    ∃ result, unionOf width facts = .ok result ∧ result.width = width ∧
      ∀ i, i ∈ result ↔ ∃ fact ∈ facts, i ∈ fact := by
  obtain ⟨result, run, width, members⟩ := @foldlM_union (empty width) facts same
  exact ⟨result, run, width, fun i => by simpa using members i⟩

private theorem foldlM_inter {start : Fact} {facts : List Fact}
    (same : ∀ fact ∈ facts, fact.width = start.width) :
    ∃ result, facts.foldlM (fun shared fact => (shared.inter fact).map Prod.fst) start = .ok result ∧
      result.width = start.width ∧ ∀ i, i ∈ result ↔ i ∈ start ∧ ∀ fact ∈ facts, i ∈ fact := by
  induction facts generalizing start with
  | nil => exact ⟨start, rfl, rfl, by simp⟩
  | cons fact rest induction =>
    have first : start.width = fact.width := (same fact (by simp)).symm
    obtain ⟨result, run, width, members⟩ := @induction (start.common fact first)
      (fun other member => by simpa using same other (by simp [member]))
    refine ⟨result, ?_, by simpa using width, fun i => ?_⟩
    · rw [List.foldlM_cons, inter_of_width first]
      exact run
    · rw [members, mem_common, and_assoc]
      simp

theorem interOf_of_width {width : Nat} {facts : List Fact}
    (same : ∀ fact ∈ facts, fact.width = width) :
    ∃ result, interOf width facts = .ok result ∧ result.width = width ∧
      ∀ i, i ∈ result ↔ i < width ∧ ∀ fact ∈ facts, i ∈ fact := by
  obtain ⟨result, run, width, members⟩ := @foldlM_inter (full width) facts same
  exact ⟨result, run, width, fun i => by simpa using members i⟩

end Fact

end Dataflow
