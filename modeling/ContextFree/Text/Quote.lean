-- SUMMARY: Quoted forms of characters, strings, integers and lists, as names of terminals and in trees and events.
import ContextFree.Text.Unprintable

/-!
# Quoted forms

An atom is shown in a form that leaves no doubt about its content: `'a'` for a character, `"ab"` for a
string, `-7` for an integer. The delimiter and the backslash are escaped, four controls have a letter of their
own, and whatever has no visible form is written by its code point.
-/
namespace ContextFree.Text

/-- Lower-case hexadecimal digits, without leading zeros. -/
def hexadecimal (n : Nat) : String :=
  String.ofList (Nat.toDigits 16 n)

/-- One character as it stands between two delimiters. -/
def escape (delimiter c : Char) : String :=
  match c with
  | '\x00' => "\\0"
  | '\t'   => "\\t"
  | '\r'   => "\\r"
  | '\n'   => "\\n"
  | '\\'   => "\\\\"
  | _ =>
    if c == delimiter then String.ofList ['\\', c]
    else if isUnprintable c then "\\u\x7b" ++ hexadecimal c.toNat ++ "\x7d"
    else String.singleton c

def quoteChar (c : Char) : String :=
  "'" ++ escape '\x27' c ++ "'"

def quoteString (s : String) : String :=
  "\"" ++ String.join (s.toList.map (escape '\x22')) ++ "\""

/-- A list in brackets, its parts divided by a comma and a space. -/
def bracketed (parts : List String) : String :=
  "[" ++ ", ".intercalate parts ++ "]"

end ContextFree.Text

namespace ContextFree

/-- Atoms that have a quoted form. -/
class Quote (α : Type) where
  quote : α → String

export Quote (quote)

instance : Quote Char := ⟨Text.quoteChar⟩
instance : Quote String := ⟨Text.quoteString⟩
instance : Quote Int := ⟨fun n => toString n⟩

/-- The quoted form of a list of atoms. -/
def quoteList {α : Type} [Quote α] (atoms : List α) : String :=
  Text.bracketed (atoms.map quote)

/-- The quoted form of an atom that may be missing. -/
def quoteOption {α : Type} [Quote α] : Option α → String
  | none      => "None"
  | some atom => "Some(" ++ quote atom ++ ")"

end ContextFree
