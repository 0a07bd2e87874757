/-!
# String literals

`quote` writes a text as a string literal and `unquote` reads one back. Reading is more generous
than writing: an escape that means nothing stands for the character behind its backslash.
-/

namespace QuoteLisp

namespace Quoted

/-! ## Writing -/

/-- The control characters: the two blocks of codes that no text shows. -/
def isControl (c : Char) : Bool := c.val < 0x20 || (0x7f ≤ c.val && c.val < 0xa0)

/-- How a character is written between quotes. -/
def escape (c : Char) : List Char :=
  if c = '"' then ['\\', '"']
  else if c = '\\' then ['\\', '\\']
  else if c = '\n' then ['\\', 'n']
  else if c = '\t' then ['\\', 't']
  else if c = '\r' then ['\\', 'r']
  else if c = '\x00' then ['\\', '0']
  else if isControl c then '\\' :: 'u' :: '\x7b' :: Nat.toDigits 16 c.toNat ++ ['\x7d']
  else [c]

/-- A text as a string literal. -/
def quote (cs : List Char) : List Char := '"' :: cs.flatMap escape ++ ['"']

/-! ## Reading -/

/-- The value of a hexadecimal digit of either case. -/
def hexDigit? (c : Char) : Option Nat :=
  if c.isDigit then some (c.toNat - '0'.toNat)
  else if 'a' ≤ c ∧ c ≤ 'f' then some (c.toNat - 'a'.toNat + 10)
  else if 'A' ≤ c ∧ c ≤ 'F' then some (c.toNat - 'A'.toNat + 10)
  else none

/-- The value of hexadecimal digits read behind the value `high`. -/
def hexFrom? (high : Nat) : List Char → Option Nat
  | [] => some high
  | c :: cs => (hexDigit? c).bind fun d => hexFrom? (16 * high + d) cs

/-- The value of one or more hexadecimal digits behind at most one plus sign. -/
def hex? : List Char → Option Nat
  | [] => none
  | c :: cs => if c = '+' ∧ cs ≠ [] then hexFrom? 0 cs else hexFrom? 0 (c :: cs)

/-- The character with a code, if it is one. -/
def scalar? (code : Nat) : Option Char :=
  if code.isValidChar then some (Char.ofNat code) else none

/-- Reads what follows a backslash and the letter u: a code in curly brackets. The result is its
character and the text behind the closing bracket. -/
def codePoint? : List Char → Option (Char × List Char)
  | [] => none
  | c :: cs =>
    if c = '\x7b' then
      match cs.dropWhile (· != '\x7d') with
      | [] => none
      | _ :: rest =>
        ((hex? (cs.takeWhile (· != '\x7d'))).bind scalar?).map fun scalar => (scalar, rest)
    else none

theorem length_rest_of_codePoint? {cs rest : List Char} {c : Char}
    (h : codePoint? cs = some (c, rest)) : rest.length < cs.length := by
  cases cs with
  | nil => cases h
  | cons b cs =>
    have hle : (cs.dropWhile (· != '\x7d')).length ≤ cs.length :=
      (List.dropWhile_sublist _).length_le
    simp only [codePoint?] at h
    split at h <;> try contradiction
    split at h <;> try contradiction
    rename_i hdrop
    obtain ⟨_, _, heq⟩ := Option.map_eq_some_iff.1 h
    cases heq
    rw [hdrop, List.length_cons] at hle
    rw [List.length_cons]
    omega

/-- What a backslash and one character stand for, apart from character codes. -/
def escaped (c : Char) : Char :=
  if c = 'n' then '\n'
  else if c = 't' then '\t'
  else if c = 'r' then '\r'
  else if c = '0' then '\x00'
  else c

/-- Resolves the escapes of a text. A malformed character code stands for the letter u and its own
text, and a backslash at the very end for itself. -/
def unescape : List Char → List Char
  | [] => []
  | c :: cs =>
    if c = '\\' then
      match cs with
      | [] => [c]
      | d :: ds =>
        if d = 'u' then
          match _ : codePoint? ds with
          | some (scalar, rest) => scalar :: unescape rest
          | none => d :: unescape ds
        else escaped d :: unescape ds
    else c :: unescape cs
  termination_by cs => cs.length
  decreasing_by
    · have := length_rest_of_codePoint? ‹_›
      simp only [List.length_cons]
      omega
    all_goals simp only [List.length_cons]; omega

/-- The text between the first and the last character, if both are quotes and not the same one. -/
def stripQuotes (cs : List Char) : List Char :=
  match cs with
  | [] => cs
  | c :: inner =>
    if c = '"' ∧ inner.getLast? = some '"' then inner.dropLast else cs

/-- The text that a string literal stands for. -/
def unquote (cs : List Char) : List Char := unescape (stripQuotes cs)

end Quoted

end QuoteLisp
