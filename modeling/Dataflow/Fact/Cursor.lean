import Dataflow.Fact.Basic

/-! Enumeration of a fact. A cursor holds what is left of the current word and the words
after it; taking the next position removes the lowest set bit, and runs of zero words are
skipped. A cursor at its end stays there. -/
namespace Dataflow

namespace Fact

structure Cursor where
  /-- Position of the current word's bit zero. -/
  base : Nat
  word : Word
  rest : List Word
  deriving DecidableEq, Repr

namespace Cursor

def scan (base : Nat) (word : Word) (rest : List Word) : Option Nat × Cursor :=
  match word.lowest?, rest with
  | some k, rest => (some (base + k), ⟨base, word.clearLowest, rest⟩)
  | none, [] => (none, ⟨base, word, []⟩)
  | none, next :: rest => scan (base + 64) next rest

def next (cursor : Cursor) : Option Nat × Cursor := scan cursor.base cursor.word cursor.rest

/-- At most `steps` positions from the cursor on. -/
def take : Nat → Cursor → List Nat
  | 0, _ => []
  | steps + 1, cursor =>
    match cursor.next with
    | (none, _) => []
    | (some i, cursor) => i :: take steps cursor

/-- The number of bits under and after the cursor, which bounds the positions left. -/
def span (cursor : Cursor) : Nat := 64 * (cursor.rest.length + 1)

def toList (cursor : Cursor) : List Nat := cursor.take cursor.span

end Cursor

def cursor (fact : Fact) : Cursor :=
  match fact.words with
  | [] => ⟨0, 0#64, []⟩
  | word :: rest => ⟨0, word, rest⟩

/-- The members in ascending order. -/
def toList (fact : Fact) : List Nat := fact.cursor.toList

def text (fact : Fact) : String :=
  "\x7b" ++ String.intercalate ", " (fact.toList.map Nat.repr) ++ "\x7d"

end Fact

end Dataflow
