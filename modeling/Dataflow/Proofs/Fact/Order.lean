import Dataflow.Fact.Lemmas
import Mathlib.Data.List.Perm.Subperm

/-! Facts of one width ordered by inclusion. The order is finite: a fact has at most as many
members as it is wide, and a fact that contains another one of the same size is the same
fact. A polarity says from which end the order is climbed. -/
namespace Dataflow

namespace Fact

instance : HasSubset Fact := ⟨fun left right => ∀ i, i ∈ left → i ∈ right⟩

theorem subset_refl (fact : Fact) : fact ⊆ fact := fun _ member => member

theorem subset_trans {first second third : Fact} (lower : first ⊆ second) (upper : second ⊆ third) :
    first ⊆ third := fun i member => upper i (lower i member)

theorem empty_subset (width : Nat) (fact : Fact) : empty width ⊆ fact := by
  intro i member
  exact absurd member (not_mem_empty width i)

theorem subset_full {width : Nat} {fact : Fact} (sized : fact.width = width) :
    fact ⊆ full width := by
  intro i member
  rw [mem_full, ← sized]
  exact lt_width member

theorem toList_nodup (fact : Fact) : fact.toList.Nodup :=
  fact.toList_pairwise.imp Nat.ne_of_lt

theorem count_le_width (fact : Fact) : fact.count ≤ fact.width := by
  have inside : fact.toList ⊆ List.range fact.width := by
    intro i member
    rw [List.mem_range]
    exact lt_width ((mem_toList fact i).mp member)
  have bound := (fact.toList_nodup.subperm inside).length_le
  rwa [length_toList, List.length_range] at bound

private theorem toList_subperm {left right : Fact} (inside : left ⊆ right) :
    left.toList.Subperm right.toList := by
  apply left.toList_nodup.subperm
  intro i member
  rw [mem_toList] at member ⊢
  exact inside i member

theorem count_le_of_subset {left right : Fact} (inside : left ⊆ right) :
    left.count ≤ right.count := by
  have bound := (toList_subperm inside).length_le
  rwa [length_toList, length_toList] at bound

theorem eq_of_subset_of_count_le {left right : Fact} (width : left.width = right.width)
    (inside : left ⊆ right) (small : right.count ≤ left.count) : left = right := by
  rw [← length_toList, ← length_toList] at small
  have same := (toList_subperm inside).perm_of_length_le small
  apply ext_mem width
  intro i
  rw [← mem_toList left, ← mem_toList right]
  exact same.mem_iff

def ofPred (width : Nat) (holds : Nat → Prop) [DecidablePred holds] : Fact :=
  ((List.range width).filter (fun i => holds i)).foldl mark (empty width)

@[simp] theorem width_ofPred (width : Nat) (holds : Nat → Prop) [DecidablePred holds] :
    (ofPred width holds).width = width := width_foldl_mark _ _

@[simp] theorem mem_ofPred (width : Nat) (holds : Nat → Prop) [DecidablePred holds] (i : Nat) :
    i ∈ ofPred width holds ↔ i < width ∧ holds i := by
  rw [ofPred, mem_foldl_mark, List.mem_filter, List.mem_range, width_empty, decide_eq_true_eq]
  constructor
  · rintro (member | ⟨inside, _⟩)
    · exact absurd member (not_mem_empty width i)
    · exact inside
  · rintro ⟨bound, property⟩
    exact Or.inr ⟨⟨bound, property⟩, bound⟩

theorem eq_ofPred {fact : Fact} {width : Nat} {holds : Nat → Prop} [DecidablePred holds]
    (sized : fact.width = width) (members : ∀ i, i ∈ fact ↔ holds i) :
    fact = ofPred width holds := by
  apply ext_mem (by rw [sized, width_ofPred])
  intro i
  rw [mem_ofPred, ← members i]
  exact ⟨fun member => ⟨sized ▸ lt_width member, member⟩, And.right⟩

end Fact

/-- Whether facts grow from nothing or shrink from everything. -/
inductive Polarity where
  | ascending
  | descending
  deriving DecidableEq, Repr

namespace Polarity

def seed : Polarity → Nat → Fact
  | ascending, width => Fact.empty width
  | descending, width => Fact.full width

/-- The second fact is reached from the first by climbing on. -/
def Below : Polarity → Fact → Fact → Prop
  | ascending, lower, upper => lower ⊆ upper
  | descending, lower, upper => upper ⊆ lower

/-- How far a fact is from the start of the climb. -/
def height : Polarity → Fact → Nat
  | ascending, fact => fact.count
  | descending, fact => fact.width - fact.count

variable (polarity : Polarity)

@[simp] theorem width_seed (width : Nat) : (polarity.seed width).width = width := by
  cases polarity <;> rfl

theorem below_refl (fact : Fact) : polarity.Below fact fact := by
  cases polarity <;> exact Fact.subset_refl fact

variable {polarity}

theorem Below.trans {first second third : Fact} (lower : polarity.Below first second)
    (upper : polarity.Below second third) : polarity.Below first third := by
  cases polarity with
  | ascending => exact Fact.subset_trans lower upper
  | descending => exact Fact.subset_trans upper lower

theorem seed_below {width : Nat} {fact : Fact} (sized : fact.width = width) :
    polarity.Below (polarity.seed width) fact := by
  cases polarity with
  | ascending => exact Fact.empty_subset width fact
  | descending => exact Fact.subset_full sized

theorem height_le_width (fact : Fact) : polarity.height fact ≤ fact.width := by
  cases polarity with
  | ascending => exact fact.count_le_width
  | descending => exact Nat.sub_le _ _

theorem Below.height_le {lower upper : Fact} (width : lower.width = upper.width)
    (below : polarity.Below lower upper) : polarity.height lower ≤ polarity.height upper := by
  cases polarity with
  | ascending => exact Fact.count_le_of_subset below
  | descending =>
    have fewer := Fact.count_le_of_subset below
    simp only [height, width]
    omega

theorem Below.eq_of_height_le {lower upper : Fact} (width : lower.width = upper.width)
    (below : polarity.Below lower upper) (flat : polarity.height upper ≤ polarity.height lower) :
    lower = upper := by
  cases polarity with
  | ascending => exact Fact.eq_of_subset_of_count_le width below flat
  | descending =>
    have bound := lower.count_le_width
    simp only [height, width] at flat bound
    refine (Fact.eq_of_subset_of_count_le width.symm below ?_).symm
    omega

end Polarity

end Dataflow
