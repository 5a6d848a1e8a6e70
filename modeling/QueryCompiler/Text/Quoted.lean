/-
Text between double quotes.

The characters that would end or disturb the quotation are written as escapes: the
quote and the backslash, four controls with a letter of their own, and everything
that has no glyph by its code point.
-/
import QueryCompiler.Text.Shown

namespace QueryCompiler.Text

/-- A code point in braces, with as few hexadecimal digits as it needs. -/
def codeEscape (c : Char) : List Char :=
  '\\' :: 'u' :: '\x7b' :: Nat.toDigits 16 c.toNat ++ ['\x7d']

/-- One character of a quoted text. -/
def quotedChar (c : Char) : List Char :=
  match c with
  | '\x00' => ['\\', '0']
  | '\t' => ['\\', 't']
  | '\r' => ['\\', 'r']
  | '\n' => ['\\', 'n']
  | '"' => ['\\', '"']
  | '\\' => ['\\', '\\']
  | c => if isShown c then [c] else codeEscape c

/-- The text between double quotes. -/
def quoted (text : String) : String :=
  String.ofList ('"' :: text.toList.flatMap quotedChar ++ ['"'])

end QueryCompiler.Text
