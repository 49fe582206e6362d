/-! Handles name the parts of a graph by number, one handle per number. They are shown as
text, and sets of them in the order of their numbers. -/
namespace Dataflow

class Shown (α : Type) where
  text : α → String

class Handle (α : Type) extends Shown α where
  number : α → Nat
  ofNumber : Nat → α
  number_ofNumber : ∀ n, number (ofNumber n) = n
  ofNumber_number : ∀ a, ofNumber (number a) = a

instance : Shown Nat := ⟨Nat.repr⟩

instance : Handle Nat := ⟨id, id, fun _ => rfl, fun _ => rfl⟩

namespace Shown

variable {α β : Type} [Shown α] [Shown β]

def pairText (pair : α × β) : String := "(" ++ text pair.1 ++ ", " ++ text pair.2 ++ ")"

def listText (shown : List α) : String :=
  "[" ++ String.intercalate ", " (shown.map text) ++ "]"

end Shown

namespace Handle

variable {α : Type} [Handle α]

def sorted (handles : List α) : List α :=
  handles.mergeSort (fun a b => number a ≤ number b)

/-- Repetitions are dropped, and the order of the list does not show. -/
def setText [DecidableEq α] (handles : List α) : String :=
  "\x7b" ++ String.intercalate ", " ((sorted handles.eraseDups).map Shown.text) ++ "\x7d"

end Handle

end Dataflow
