/-!
# Spans of source text

A `Span` is a range of byte offsets into a source text, counted in its UTF-8 encoding. Every token,
every node of the tree and every syntax error carries one.
-/

namespace QuoteLisp

/-- The bytes from `start` up to, not including, `stop`. -/
structure Span where
  start : Nat
  stop : Nat
  deriving DecidableEq

namespace Span

/-- The empty span at a position. -/
def point (position : Nat) : Span := ⟨position, position⟩

/-- The smallest span that covers two. -/
def merge (a b : Span) : Span := ⟨min a.start b.start, max a.stop b.stop⟩

def text (span : Span) : String := s!"{span.start}..{span.stop}"

end Span

/-- The length of a text in the bytes of its UTF-8 encoding. -/
def byteLength (cs : List Char) : Nat := cs.foldr (fun c length => c.utf8Size + length) 0

@[simp] theorem byteLength_nil : byteLength [] = 0 := rfl

@[simp] theorem byteLength_cons (c : Char) (cs : List Char) :
    byteLength (c :: cs) = c.utf8Size + byteLength cs := rfl

@[simp] theorem byteLength_append (as bs : List Char) :
    byteLength (as ++ bs) = byteLength as + byteLength bs := by
  induction as with
  | nil => simp
  | cons c as ih => rw [List.cons_append, byteLength_cons, byteLength_cons, ih, Nat.add_assoc]

end QuoteLisp
