import Dataflow.Fault
import Dataflow.Fact.Word

/-! Facts: sets of positions below a fixed width, packed into words. The words are exactly
as many as the width needs and hold no bit beyond it, so equal sets of one width have equal
words. Membership is the view through which every operation is described. -/
namespace Dataflow

structure Fact where
  width : Nat
  words : List Word
  stored : words.length = Words.length width
  padding : ∀ i, width ≤ i → Words.bit words i = false
  deriving DecidableEq

namespace Fact

instance : Membership Nat Fact := ⟨fun fact i => Words.bit fact.words i = true⟩

instance (fact : Fact) (i : Nat) : Decidable (i ∈ fact) :=
  inferInstanceAs (Decidable (Words.bit fact.words i = true))

theorem mem_def {fact : Fact} {i : Nat} : i ∈ fact ↔ Words.bit fact.words i = true := Iff.rfl

theorem lt_width {fact : Fact} {i : Nat} (member : i ∈ fact) : i < fact.width := by
  apply Nat.lt_of_not_le
  intro outside
  rw [mem_def, fact.padding i outside] at member
  contradiction

theorem ext_words {left right : Fact} (width : left.width = right.width)
    (words : left.words = right.words) : left = right := by
  cases left; cases right
  simp only at width words
  subst width words
  rfl

theorem length_words {left right : Fact} (same : left.width = right.width) :
    left.words.length = right.words.length := by
  rw [left.stored, right.stored, same]

/-- A fact is its width and its members. -/
theorem ext_mem {left right : Fact} (width : left.width = right.width)
    (members : ∀ i, i ∈ left ↔ i ∈ right) : left = right := by
  apply ext_words width
  apply Words.eq_of_bit_eq (length_words width)
  intro i
  exact Bool.eq_iff_iff.mpr (members i)

private theorem word_stored {fact : Fact} {i : Nat} (inside : i < fact.width) :
    i / 64 < fact.words.length := by
  rw [fact.stored, Words.length]
  omega

def empty (width : Nat) : Fact where
  width
  words := Words.zeros width
  stored := Words.length_zeros width
  padding := fun i _ => Words.bit_zeros width i

def full (width : Nat) : Fact where
  width
  words := Words.ones width
  stored := Words.length_ones width
  padding := fun i outside => by simp [Nat.not_lt_of_le outside]

/-- Sets a position; one outside the fact is left alone. -/
def mark (fact : Fact) (i : Nat) : Fact :=
  if inside : i < fact.width then
    { width := fact.width
      words := Words.set fact.words i
      stored := by rw [Words.length_set, fact.stored]
      padding := fun j outside => by
        have distinct : j ≠ i := by omega
        simp [Words.bit_set _ _ _ (word_stored inside), fact.padding j outside, distinct] }
  else fact

def unmark (fact : Fact) (i : Nat) : Fact where
  width := fact.width
  words := Words.reset fact.words i
  stored := by rw [Words.length_reset, fact.stored]
  padding := fun j outside => by simp [Words.bit_reset, fact.padding j outside]

/-- Combines two facts of one width word by word. -/
def zipWords (op : Word.Bitwise) (left right : Fact) (same : left.width = right.width) : Fact where
  width := left.width
  words := (Words.combine op.word left.words right.words).1
  stored := by
    rw [Words.combine_eq (length_words same), List.length_zipWith, left.stored, right.stored, same,
      Nat.min_self]
  padding := fun i outside => by
    rw [Words.combine_eq (length_words same), Words.bit_zipWith op (length_words same),
      left.padding i outside, right.padding i (same ▸ outside), op.zero]

def join (left right : Fact) (same : left.width = right.width) : Fact :=
  zipWords .or left right same

def common (left right : Fact) (same : left.width = right.width) : Fact :=
  zipWords .and left right same

def without (left right : Fact) (same : left.width = right.width) : Fact :=
  zipWords .andNot left right same

theorem words_zipWords {op : Word.Bitwise} {left right : Fact} (same : left.width = right.width) :
    (zipWords op left right same).words = List.zipWith op.word left.words right.words :=
  congrArg Prod.fst (Words.combine_eq (length_words same))

theorem mem_zipWords {op : Word.Bitwise} {left right : Fact} {same : left.width = right.width}
    {i : Nat} : i ∈ zipWords op left right same ↔
      op.bit (decide (i ∈ left)) (decide (i ∈ right)) = true := by
  rw [mem_def, words_zipWords, Words.bit_zipWith op (length_words same)]
  simp [mem_def]

@[simp] theorem width_empty (width : Nat) : (empty width).width = width := rfl

@[simp] theorem width_full (width : Nat) : (full width).width = width := rfl

@[simp] theorem width_mark (fact : Fact) (i : Nat) : (fact.mark i).width = fact.width := by
  unfold mark
  split <;> rfl

@[simp] theorem width_unmark (fact : Fact) (i : Nat) : (fact.unmark i).width = fact.width := rfl

@[simp] theorem width_join (left right : Fact) (same) : (left.join right same).width = left.width :=
  rfl

@[simp] theorem width_common (left right : Fact) (same) :
    (left.common right same).width = left.width := rfl

@[simp] theorem width_without (left right : Fact) (same) :
    (left.without right same).width = left.width := rfl

@[simp] theorem not_mem_empty (width i : Nat) : i ∉ empty width := by simp [mem_def, empty]

@[simp] theorem mem_full (width i : Nat) : i ∈ full width ↔ i < width := by simp [mem_def, full]

@[simp] theorem mem_mark (fact : Fact) (i j : Nat) :
    j ∈ fact.mark i ↔ j ∈ fact ∨ (j = i ∧ i < fact.width) := by
  unfold mark
  split
  · next inside => simp [mem_def, Words.bit_set _ _ _ (word_stored inside), inside]
  · next outside => simp [outside]

@[simp] theorem mem_unmark (fact : Fact) (i j : Nat) :
    j ∈ fact.unmark i ↔ j ∈ fact ∧ j ≠ i := by
  simp [mem_def, unmark, Words.bit_reset]

@[simp] theorem mem_join (left right : Fact) (same) (i : Nat) :
    i ∈ left.join right same ↔ i ∈ left ∨ i ∈ right := by
  simp [join, mem_zipWords, Word.Bitwise.or]

@[simp] theorem mem_common (left right : Fact) (same) (i : Nat) :
    i ∈ left.common right same ↔ i ∈ left ∧ i ∈ right := by
  simp [common, mem_zipWords, Word.Bitwise.and]

@[simp] theorem mem_without (left right : Fact) (same) (i : Nat) :
    i ∈ left.without right same ↔ i ∈ left ∧ i ∉ right := by
  simp [without, mem_zipWords, Word.Bitwise.andNot]

/-! The checked operations. Those that change a fact also say whether it differs. -/

def insert (fact : Fact) (i : Nat) : Except Fault (Fact × Bool) :=
  if i < fact.width then .ok (fact.mark i, !decide (i ∈ fact))
  else .error (.outsideFact i fact.width)

def erase (fact : Fact) (i : Nat) : Except Fault (Fact × Bool) :=
  if i < fact.width then .ok (fact.unmark i, decide (i ∈ fact))
  else .error (.outsideFact i fact.width)

def contains (fact : Fact) (i : Nat) : Except Fault Bool :=
  if i < fact.width then .ok (decide (i ∈ fact)) else .error (.outsideFact i fact.width)

def clear (fact : Fact) : Fact := empty fact.width

def fill (fact : Fact) : Fact := full fact.width

def combine (op : Word.Bitwise) (left right : Fact) : Except Fault (Fact × Bool) :=
  if same : left.width = right.width then
    .ok (zipWords op left right same, (Words.combine op.word left.words right.words).2)
  else .error (.widthsDiffer left.width right.width)

def union (left right : Fact) : Except Fault (Fact × Bool) := combine .or left right

def inter (left right : Fact) : Except Fault (Fact × Bool) := combine .and left right

def diff (left right : Fact) : Except Fault (Fact × Bool) := combine .andNot left right

def isSubset (left right : Fact) : Except Fault Bool :=
  if left.width = right.width then
    .ok ((List.zipWith (fun a b => a &&& ~~~ b) left.words right.words).all (· == 0#64))
  else .error (.widthsDiffer left.width right.width)

def isEmpty (fact : Fact) : Bool := fact.words.all (· == 0#64)

def count (fact : Fact) : Nat := Words.count fact.words

/-- Positions are inserted in order, so the first one outside the width is reported. -/
def insertAll (fact : Fact) (indices : List Nat) : Except Fault Fact :=
  indices.foldlM (fun fact i => (fact.insert i).map Prod.fst) fact

def eraseAll (fact : Fact) (indices : List Nat) : Except Fault Fact :=
  indices.foldlM (fun fact i => (fact.erase i).map Prod.fst) fact

def ofIndices (width : Nat) (indices : List Nat) : Except Fault Fact :=
  (empty width).insertAll indices

def unionOf (width : Nat) (facts : List Fact) : Except Fault Fact :=
  facts.foldlM (fun joined fact => (joined.union fact).map Prod.fst) (empty width)

def interOf (width : Nat) (facts : List Fact) : Except Fault Fact :=
  facts.foldlM (fun shared fact => (shared.inter fact).map Prod.fst) (full width)

end Fact

end Dataflow
