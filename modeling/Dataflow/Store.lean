import Dataflow.Assignment
import Dataflow.Fact.Cursor

/-! The facts of instructions. Seeding gives every instruction its first fact; afterwards
facts are only updated, and an update keeps the width. -/
namespace Dataflow

abbrev Store (ι : Type) := Assignment ι Fact

namespace Store

variable {ι : Type} [DecidableEq ι]

/-- The fact is written also when the instruction already had one, which is a fault. -/
def seed (store : Store ι) (inst : ι) (fact : Fact) : Except Fault Unit × Store ι :=
  (if (store.get? inst).isSome then .error .seededTwice else .ok (), store.set inst fact)

def seedAll (store : Store ι) (fact : Fact) (instructions : List ι) : Except Fault (Store ι) :=
  instructions.foldlM (fun store inst => do
    let (seeded, store) := store.seed inst fact
    seeded
    return store) store

/-- The answer says whether the fact of the instruction differs from before. -/
def update (store : Store ι) (inst : ι) (fact : Fact) : Except Fault (Bool × Store ι) :=
  match store.get? inst with
  | none => .error .notSeeded
  | some old =>
    if old.width ≠ fact.width then .error (.transferWidth old.width fact.width)
    else if old = fact then .ok (false, store)
    else .ok (true, store.set inst fact)

end Store

end Dataflow
