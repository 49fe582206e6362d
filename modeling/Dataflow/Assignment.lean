/-! Finite assignments of values to keys. A key is listed once, in order of first arrival;
assigning again replaces the value in place. `get?` is the view. -/
namespace Dataflow

structure Assignment (κ α : Type) where
  entries : List (κ × α)
  distinct : (entries.map Prod.fst).Nodup

namespace Assignment

variable {κ α : Type} [DecidableEq κ]

def write (key : κ) (value : α) : List (κ × α) → List (κ × α)
  | [] => [(key, value)]
  | entry :: rest =>
    if entry.1 = key then (key, value) :: rest else entry :: write key value rest

theorem keys_write (key : κ) (value : α) (entries : List (κ × α)) :
    (write key value entries).map Prod.fst =
      if key ∈ entries.map Prod.fst then entries.map Prod.fst
      else entries.map Prod.fst ++ [key] := by
  induction entries with
  | nil => simp [write]
  | cons entry rest induction =>
    by_cases same : entry.1 = key
    · simp [write, same]
    · have different : ¬ key = entry.1 := fun h => same h.symm
      simp only [write, same, if_false, List.map_cons, induction, List.mem_cons, different,
        false_or]
      split <;> simp

def empty : Assignment κ α := ⟨[], List.nodup_nil⟩

def keys (a : Assignment κ α) : List κ := a.entries.map Prod.fst

def size (a : Assignment κ α) : Nat := a.entries.length

def isEmpty (a : Assignment κ α) : Bool := a.entries.isEmpty

def get? (a : Assignment κ α) (key : κ) : Option α :=
  (a.entries.find? (fun entry => entry.1 = key)).map Prod.snd

def set (a : Assignment κ α) (key : κ) (value : α) : Assignment κ α where
  entries := write key value a.entries
  distinct := by
    rw [keys_write]
    split
    · exact a.distinct
    · next absent =>
      rw [List.nodup_append]
      refine ⟨a.distinct, by simp, ?_⟩
      intro k member _ last same
      simp only [List.mem_singleton] at last
      exact absent (last ▸ same ▸ member)

@[simp] theorem get?_empty (key : κ) : (empty : Assignment κ α).get? key = none := rfl

private theorem find?_write (key : κ) (value : α) (entries : List (κ × α)) (other : κ) :
    ((write key value entries).find? (fun entry => entry.1 = other)).map Prod.snd =
      if other = key then some value
      else (entries.find? (fun entry => entry.1 = other)).map Prod.snd := by
  induction entries with
  | nil =>
    by_cases same : other = key
    · simp [write, same]
    · have different : ¬ key = other := fun h => same h.symm
      simp [write, same, different]
  | cons entry rest induction =>
    by_cases here : entry.1 = key
    · by_cases same : other = key
      · simp [write, here, same]
      · have different : ¬ key = other := fun h => same h.symm
        simp [write, here, same, different]
    · by_cases found : entry.1 = other
      · have different : ¬ other = key := fun h => here (found.trans h)
        simp [write, found, different]
      · simp [write, here, found, induction]

/-- Assigning changes the value of its own key and of no other. -/
theorem get?_set (a : Assignment κ α) (key : κ) (value : α) (other : κ) :
    (a.set key value).get? other = if other = key then some value else a.get? other :=
  find?_write key value a.entries other

@[simp] theorem get?_set_self (a : Assignment κ α) (key : κ) (value : α) :
    (a.set key value).get? key = some value := by simp [get?_set]

theorem get?_set_ne (a : Assignment κ α) {key other : κ} (value : α) (different : other ≠ key) :
    (a.set key value).get? other = a.get? other := by simp [get?_set, different]

private theorem write_of_find? {key : κ} {value : α} {entries : List (κ × α)}
    (found : (entries.find? (fun entry => entry.1 = key)).map Prod.snd = some value) :
    write key value entries = entries := by
  induction entries with
  | nil => simp at found
  | cons entry rest induction =>
    by_cases same : entry.1 = key
    · simp only [same, decide_true, List.find?_cons_of_pos, Option.map_some,
        Option.some.injEq] at found
      simp [write, ← same, ← found]
    · simp only [same, decide_false, Bool.false_eq_true, not_false_eq_true,
        List.find?_cons_of_neg] at found
      simp [write, same, induction found]

/-- Assigning the value a key has changes nothing. -/
theorem set_eq_self {a : Assignment κ α} {key : κ} {value : α} (found : a.get? key = some value) :
    a.set key value = a := by
  obtain ⟨entries, distinct⟩ := a
  simp only [set, write_of_find? found]

theorem get?_isSome_iff (a : Assignment κ α) (key : κ) : (a.get? key).isSome ↔ key ∈ a.keys := by
  simp [get?, keys, List.find?_isSome]

end Assignment

end Dataflow
