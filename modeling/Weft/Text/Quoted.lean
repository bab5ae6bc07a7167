import Weft.Text.Hex
import Weft.Text.Unprintable

/-!
# Quoted text

A text between double quotes on one line: quotes and backslashes are escaped, the usual controls
have letters, and a character without a glyph is written by its code point in braces. Beside it
stand the shapes in which values are shown: lists, applied names and labelled fields.
-/

namespace Weft.Text

/-- The code point of a character in braces after `\u`. -/
def codePoint (c : Char) : List Char :=
  "\\u\x7b".toList ++ (hex c.toNat).toList ++ "\x7d".toList

/-- A character as it stands between double quotes. -/
def quoteChar (c : Char) : List Char :=
  match c with
  | '"' => ['\\', '"']
  | '\\' => ['\\', '\\']
  | '\n' => ['\\', 'n']
  | '\r' => ['\\', 'r']
  | '\t' => ['\\', 't']
  | c =>
    if c.toNat = 0 then ['\\', '0']
    else if isUnprintable c then codePoint c
    else [c]

/-- The text between double quotes. -/
def quote (s : String) : String :=
  String.ofList ('"' :: s.toList.flatMap quoteChar ++ ['"'])

/-- A list in brackets, its items already rendered. -/
def bracketed (items : List String) : String :=
  "[" ++ ", ".intercalate items ++ "]"

/-- A name applied to its rendered arguments, in parentheses. -/
def applied (name : String) (arguments : List String) : String :=
  name ++ "(" ++ ", ".intercalate arguments ++ ")"

/-- A name followed by labelled fields in braces. -/
def labelled (name : String) (fields : List (String × String)) : String :=
  name ++ " \x7b " ++ ", ".intercalate (fields.map fun f => f.1 ++ ": " ++ f.2) ++ " \x7d"

/-- A name followed by labelled fields in braces, and two dots for those that are left out. -/
def labelledOpen (name : String) (fields : List (String × String)) : String :=
  name ++ " \x7b " ++ String.join (fields.map fun f => f.1 ++ ": " ++ f.2 ++ ", ") ++ ".. \x7d"

end Weft.Text
