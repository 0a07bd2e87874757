import QuoteLisp.Text.Quoted
import QuoteLisp.Value
import QuoteLisp.Word

/-!
# The text of a value

Values print the way they are written: numbers in decimal, strings as literals, lists with single
spaces between their items. A closure prints as the expression that makes it.
-/

namespace QuoteLisp

namespace Value

/-- Texts with a single space between neighbours. -/
def spaced (texts : List (List Char)) : List Char := [' '].intercalate texts

/-- A text in brackets. -/
def enclose (bracket : Bracket) (cs : List Char) : List Char :=
  bracket.opener :: cs ++ [bracket.closer]

mutual

/-- The characters that a value prints as. -/
def chars : Value → List Char
  | number n => Word.digits n
  | string text => Quoted.quote text.toList
  | symbol name => name.toList
  | error e => "Error: ".toList ++ e.message.toList
  | sexpr items => enclose .round (spaced (charsOfItems items))
  | qexpr items => enclose .curly (spaced (charsOfItems items))
  | builtin _ => "<builtin>".toList
  | closure formals body _ _ =>
    enclose .round (spaced
      [['\\'], enclose .curly (spaced (formals.map String.toList)),
        enclose .curly (spaced (charsOfItems body))])
  termination_by structural v => v

def charsOfItems : List Value → List (List Char)
  | [] => []
  | item :: items => chars item :: charsOfItems items
  termination_by structural items => items

end

theorem charsOfItems_eq_map (items : List Value) : charsOfItems items = items.map chars := by
  induction items with
  | nil => rfl
  | cons item items ih => simp [charsOfItems, ih]

@[simp] theorem chars_number (n : Int64) : (number n).chars = Word.digits n := rfl

@[simp] theorem chars_string (text : String) : (string text).chars = Quoted.quote text.toList :=
  rfl

@[simp] theorem chars_symbol (name : String) : (symbol name).chars = name.toList := rfl

@[simp] theorem chars_sexpr (items : List Value) :
    (sexpr items).chars = enclose .round (spaced (items.map chars)) := by
  rw [← charsOfItems_eq_map]
  rfl

@[simp] theorem chars_qexpr (items : List Value) :
    (qexpr items).chars = enclose .curly (spaced (items.map chars)) := by
  rw [← charsOfItems_eq_map]
  rfl

/-- The text that a value prints as. -/
def text (v : Value) : String := String.ofList v.chars

end Value

end QuoteLisp
