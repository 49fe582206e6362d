/-! Lists of 64-bit words read as sequences of bits. Bit `i` is bit `i % 64` of word
`i / 64`, least significant first, and a missing word reads as zero. Each write comes
with one lemma that gives every bit afterwards. -/
namespace Dataflow

abbrev Word := BitVec 64

namespace Word

/-- Subtracting one borrows from the lowest set bit, so the conjunction loses just that bit. -/
def clearLowest (w : Word) : Word := w &&& (w - 1#64)

/-- The place of the lowest set bit: what `clearLowest` takes away is a power of two. -/
def lowest? (w : Word) : Option Nat :=
  if w = 0#64 then none else some (w ^^^ w.clearLowest).toNat.log2

def count (w : Word) : Nat := (List.range 64).countP w.getLsbD

/-- The low `size` bits set. -/
def low (size : Nat) : Word := BitVec.ofNat 64 ((1 <<< size) - 1)

def IsLowest (w : Word) (k : Nat) : Prop := w.getLsbD k = true ∧ ∀ j < k, w.getLsbD j = false

theorem exists_isLowest {w : Word} (nonzero : w ≠ 0#64) : ∃ k, w.IsLowest k := by
  cases found : (List.range 64).find? w.getLsbD with
  | some k =>
    obtain ⟨set, _, below⟩ := List.find?_range_eq_some.mp found
    exact ⟨k, set, fun j less => by simpa using below j less⟩
  | none =>
    refine absurd (BitVec.eq_of_getLsbD_eq fun i bound => ?_) nonzero
    simpa using List.find?_eq_none.mp found i (List.mem_range.mpr bound)

theorem IsLowest.unique {w : Word} {j k : Nat} (first : w.IsLowest j) (second : w.IsLowest k) :
    j = k := by
  rcases Nat.lt_trichotomy j k with less | same | less
  · exact absurd (first.1.symm.trans (second.2 j less)) (by decide)
  · exact same
  · exact absurd (second.1.symm.trans (first.2 k less)) (by decide)

theorem getLsbD_low (size i : Nat) : (low size).getLsbD i = (decide (i < 64) && decide (i < size)) := by
  simp [low, BitVec.getLsbD_ofNat, Nat.one_shiftLeft, Nat.testBit_two_pow_sub_one]

private theorem testBit_and_pred (k q j : Nat) :
    (((2 * q + 1) <<< k) &&& (((2 * q + 1) <<< k) - 1)).testBit j =
      (((2 * q + 1) <<< k).testBit j && decide (j ≠ k)) := by
  have product : (2 * q + 1) <<< k = 2 ^ k * (2 * q + 1) := by rw [Nat.shiftLeft_eq, Nat.mul_comm]
  have positive : 0 < 2 ^ k := Nat.two_pow_pos k
  have split : 2 ^ k * (2 * q + 1) - 1 = 2 ^ k * (2 * q) + (2 ^ k - 1) := by
    rw [Nat.mul_add]; omega
  have whole : 2 ^ k * (2 * q + 1) = 2 ^ k * (2 * q + 1) + 0 := rfl
  rw [product, Nat.testBit_and, split, whole, Nat.testBit_two_pow_mul_add _ positive,
    Nat.testBit_two_pow_mul_add _ (by omega)]
  by_cases less : j < k
  · simp [less]
  · by_cases same : j = k
    · subst same
      simp [Nat.testBit_zero]
    · obtain ⟨m, rfl⟩ : ∃ m, j = k + (m + 1) := ⟨j - k - 1, by omega⟩
      have shift : k + (m + 1) - k = m + 1 := by omega
      simp only [less, if_false, shift, Nat.testBit_succ]
      have odd : (2 * q + 1) / 2 = q := by omega
      have even : 2 * q / 2 = q := by omega
      simp [odd, even]

/-- A nonzero word is an odd number, shifted to the place of its lowest set bit. -/
private theorem exists_odd_multiple {w : Word} {k : Nat} (lowest : w.IsLowest k) :
    ∃ q, w.toNat = (2 * q + 1) <<< k := by
  have aligned : w.toNat % 2 ^ k = 0 := by
    apply Nat.eq_of_testBit_eq
    intro j
    rw [Nat.testBit_mod_two_pow, Nat.zero_testBit]
    by_cases less : j < k
    · have unset : w.toNat.testBit j = false := lowest.2 j less
      simp [unset]
    · simp [less]
  have odd : w.toNat / 2 ^ k % 2 = 1 := by
    have bit : w.toNat.testBit k = true := lowest.1
    simpa [Nat.testBit_eq_decide_div_mod_eq] using bit
  refine ⟨w.toNat / 2 ^ k / 2, ?_⟩
  have whole : 2 * (w.toNat / 2 ^ k / 2) + 1 = w.toNat / 2 ^ k := by omega
  rw [whole, Nat.shiftLeft_eq, Nat.mul_comm]
  exact (Nat.mul_div_cancel' (Nat.dvd_of_mod_eq_zero aligned)).symm

theorem getLsbD_clearLowest {w : Word} {k : Nat} (lowest : w.IsLowest k) (j : Nat) :
    w.clearLowest.getLsbD j = (w.getLsbD j && decide (j ≠ k)) := by
  obtain ⟨q, product⟩ := exists_odd_multiple lowest
  have positive : 1 ≤ w.toNat := by
    rw [product, Nat.shiftLeft_eq]
    exact Nat.mul_pos (Nat.succ_pos _) (Nat.two_pow_pos k)
  have pred : (w - 1#64).toNat = w.toNat - 1 :=
    BitVec.toNat_sub_of_le (by simpa [BitVec.le_def] using positive)
  have bits := testBit_and_pred k q j
  rw [← product, ← pred, ← BitVec.toNat_and] at bits
  exact bits

theorem xor_clearLowest {w : Word} {k : Nat} (lowest : w.IsLowest k) :
    w ^^^ w.clearLowest = BitVec.twoPow 64 k := by
  apply BitVec.eq_of_getLsbD_eq
  intro j bound
  rw [BitVec.getLsbD_xor, getLsbD_clearLowest lowest, BitVec.getLsbD_twoPow]
  by_cases same : j = k
  · subst same
    simp [lowest.1, bound]
  · have different : ¬ k = j := fun h => same h.symm
    simp [same, different]

theorem lowest?_eq_some_iff (w : Word) (k : Nat) : w.lowest? = some k ↔ w.IsLowest k := by
  by_cases zero : w = 0#64
  · simp [lowest?, IsLowest, zero]
  · obtain ⟨m, lowest⟩ := exists_isLowest zero
    have place : m < 64 := BitVec.lt_of_getLsbD lowest.1
    have power : (w ^^^ w.clearLowest).toNat.log2 = m := by
      rw [xor_clearLowest lowest, BitVec.toNat_twoPow,
        Nat.mod_eq_of_lt (Nat.pow_lt_pow_right (by decide) place), Nat.log2_two_pow]
    simp only [lowest?, zero, if_false, power, Option.some.injEq]
    exact ⟨fun same => same ▸ lowest, fun other => lowest.unique other⟩

theorem lowest?_eq_none_iff (w : Word) : w.lowest? = none ↔ w = 0#64 := by
  simp [lowest?]

/-- An operation on two words that acts on the bits at each place by themselves. -/
structure Bitwise where
  word : Word → Word → Word
  bit : Bool → Bool → Bool
  acts : ∀ a b k, k < 64 → (word a b).getLsbD k = bit (a.getLsbD k) (b.getLsbD k)
  zero : bit false false = false

namespace Bitwise

def or : Bitwise := ⟨(· ||| ·), (· || ·), by simp, rfl⟩

def and : Bitwise := ⟨(· &&& ·), (· && ·), by simp, rfl⟩

def andNot : Bitwise :=
  ⟨fun a b => a &&& ~~~ b, fun a b => a && !b, by intro a b k bound; simp [bound], rfl⟩

end Bitwise

end Word

/-! Writes on a list of words. -/
namespace Words

/-- The number of words that hold `width` bits. -/
def length (width : Nat) : Nat := (width + 63) / 64

def bit (words : List Word) (i : Nat) : Bool := (words.getD (i / 64) 0#64).getLsbD (i % 64)

def zeros (width : Nat) : List Word := List.replicate (length width) 0#64

/-- Whole words of ones, then the part of a word that is left over. -/
def ones (width : Nat) : List Word :=
  List.replicate (width / 64) (BitVec.allOnes 64) ++
    if width % 64 = 0 then [] else [Word.low (width % 64)]

def set (words : List Word) (i : Nat) : List Word :=
  words.modify (i / 64) (· ||| BitVec.twoPow 64 (i % 64))

def reset (words : List Word) (i : Nat) : List Word :=
  words.modify (i / 64) (· &&& ~~~ BitVec.twoPow 64 (i % 64))

/-- Goes through two lists of words side by side and rewrites the first one; the answer says whether
a word has become another. -/
def combine (op : Word → Word → Word) : List Word → List Word → List Word × Bool
  | a :: left, b :: right =>
    let (rest, changed) := combine op left right
    (op a b :: rest, a != op a b || changed)
  | left, _ => (left, false)

/-- The number of ones in all words. -/
def count (words : List Word) : Nat := words.foldr (fun word total => word.count + total) 0

@[simp] theorem count_nil : count [] = 0 := rfl

@[simp] theorem count_cons (word : Word) (words : List Word) :
    count (word :: words) = word.count + count words := rfl

@[simp] theorem length_set (words : List Word) (i : Nat) : (set words i).length = words.length := by
  simp [set]

@[simp] theorem length_reset (words : List Word) (i : Nat) : (reset words i).length = words.length := by
  simp [reset]

@[simp] theorem length_zeros (width : Nat) : (zeros width).length = length width := by
  simp [zeros]

@[simp] theorem length_ones (width : Nat) : (ones width).length = length width := by
  simp only [ones, length, List.length_append, List.length_replicate]
  split <;> simp <;> omega

@[simp] theorem bit_zeros (width i : Nat) : bit (zeros width) i = false := by
  simp only [bit, zeros, List.getD_eq_getElem?_getD, List.getElem?_replicate]
  split <;> simp

@[simp] theorem bit_ones (width i : Nat) : bit (ones width) i = decide (i < width) := by
  have offset : i % 64 < 64 := Nat.mod_lt _ (by decide)
  simp only [bit, ones, List.getD_eq_getElem?_getD]
  by_cases whole : i / 64 < width / 64
  · rw [List.getElem?_append_left (by simpa using whole), List.getElem?_replicate, if_pos whole]
    have inside : i < width := by omega
    simp only [Option.getD_some, BitVec.getLsbD_allOnes, inside, offset]
  · rw [List.getElem?_append_right (by simpa using whole), List.length_replicate]
    by_cases aligned : width % 64 = 0
    · have outside : ¬ i < width := by omega
      simp [aligned, outside]
    · by_cases last : i / 64 = width / 64
      · have same : i % 64 < width % 64 ↔ i < width := by omega
        simp [-BitVec.getLsbD_eq_getElem, aligned, last, Word.getLsbD_low, offset, same]
      · have outside : ¬ i < width := by omega
        have beyond : i / 64 - width / 64 ≠ 0 := by omega
        simp [aligned, outside, beyond]

theorem bit_set (words : List Word) (i j : Nat) (stored : i / 64 < words.length) :
    bit (set words i) j = (bit words j || decide (j = i)) := by
  have offset : j % 64 < 64 := Nat.mod_lt _ (by decide)
  simp only [bit, set, List.getD_eq_getElem?_getD, List.getElem?_modify]
  by_cases sameWord : i / 64 = j / 64
  · have sameBit : j % 64 = i % 64 ↔ j = i := by omega
    have present : words[j / 64]? = some words[j / 64] := List.getElem?_eq_getElem (sameWord ▸ stored)
    simp [sameWord, present, offset, sameBit]
  · have distinct : j ≠ i := fun same => sameWord (by rw [same])
    simp [sameWord, distinct]

theorem bit_reset (words : List Word) (i j : Nat) :
    bit (reset words i) j = (bit words j && decide (j ≠ i)) := by
  have offset : j % 64 < 64 := Nat.mod_lt _ (by decide)
  simp only [bit, reset, List.getD_eq_getElem?_getD, List.getElem?_modify]
  by_cases sameWord : i / 64 = j / 64
  · have sameBit : j % 64 = i % 64 ↔ j = i := by omega
    cases words[j / 64]? <;> simp [sameWord, offset, sameBit]
  · have distinct : j ≠ i := fun same => sameWord (by rw [same])
    simp [sameWord, distinct]

/-- Side by side, words are combined pair by pair, and the answer compares the whole lists. -/
theorem combine_eq {op : Word → Word → Word} {left right : List Word}
    (same : left.length = right.length) :
    combine op left right =
      (List.zipWith op left right, decide (List.zipWith op left right ≠ left)) := by
  induction left generalizing right with
  | nil => cases right <;> simp_all [combine]
  | cons a left induction =>
    cases right with
    | nil => simp at same
    | cons b right =>
      have rest := @induction right (by simpa using same)
      rw [combine, rest, List.zipWith_cons_cons]
      by_cases kept : op a b = a
      · simp [kept]
      · have moved : (a == op a b) = false := beq_eq_false_iff_ne.mpr fun h => kept h.symm
        simp [kept, moved, bne]

theorem bit_zipWith (op : Word.Bitwise) {left right : List Word}
    (same : left.length = right.length) (i : Nat) :
    bit (List.zipWith op.word left right) i = op.bit (bit left i) (bit right i) := by
  have offset : i % 64 < 64 := Nat.mod_lt _ (by decide)
  simp only [bit, List.getD_eq_getElem?_getD, List.getElem?_zipWith]
  by_cases stored : i / 64 < left.length
  · simp [-BitVec.getLsbD_eq_getElem, List.getElem?_eq_getElem stored,
      List.getElem?_eq_getElem (same ▸ stored), op.acts, offset]
  · have beyond : right.length ≤ i / 64 := by omega
    simp [List.getElem?_eq_none (Nat.le_of_not_lt stored), List.getElem?_eq_none beyond, op.zero]

/-- Words of one length are told apart by their bits. -/
theorem eq_of_bit_eq {left right : List Word} (same : left.length = right.length)
    (bits : ∀ i, bit left i = bit right i) : left = right := by
  apply List.ext_getElem same
  intro n hl hr
  apply BitVec.eq_of_getLsbD_eq
  intro k bound
  have here := bits (64 * n + k)
  have word : (64 * n + k) / 64 = n := by omega
  have offset : (64 * n + k) % 64 = k := by omega
  simpa [bit, word, offset, List.getElem?_eq_getElem hl, List.getElem?_eq_getElem hr] using here

end Words

end Dataflow
