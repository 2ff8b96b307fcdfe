/-
Values of the JSON format and their text.

The text may be laid out with indentation: members and elements stand on lines
of their own, and empty containers stay closed. In strings, the angle brackets
and the ampersand are written as numbers, so that the text can stand inside
markup, and so are the two line separators that end lines in scripts.
-/
import MirBackend.Text.Quoted

namespace MirBackend.Text

inductive Json where
  | null
  | num (n : Int)
  | str (s : String)
  | arr (elems : List Json)
  | obj (members : List (String × Json))

namespace Json

/-- One character of a string. -/
def charText (c : Char) : String :=
  match c with
  | '"' => "\\\""
  | '\\' => "\\\\"
  | '\n' => "\\n"
  | '\r' => "\\r"
  | '\t' => "\\t"
  | '\x08' => "\\b"
  | '\x0c' => "\\f"
  | c =>
      if c.toNat < 0x20 ∨ c = '<' ∨ c = '>' ∨ c = '&' ∨ c.toNat = 0x2028
        ∨ c.toNat = 0x2029 then
        "\\u" ++ hexText 4 c.toNat
      else c.toString

def stringText (s : String) : String :=
  "\"" ++ String.join (s.toList.map charText) ++ "\""

/-- Items on lines of their own inside brackets; none at all between closed
brackets. -/
def bracketed (opening closing indent : String) : List String → String
  | [] => opening ++ closing
  | items =>
      opening ++ "\n" ++ indent ++ "  "
          ++ (",\n" ++ indent ++ "  ").intercalate items ++ "\n"
        ++ indent ++ closing

mutual

/-- The text, indented by two blanks a level under `indent`. -/
def indented (indent : String) : Json → String
  | .null => "null"
  | .num n => toString n
  | .str s => stringText s
  | .arr es => bracketed "[" "]" indent (elemTexts (indent ++ "  ") es)
  | .obj ms => bracketed "\x7b" "\x7d" indent (memberTexts (indent ++ "  ") ms)

/-- The texts of elements. -/
def elemTexts (indent : String) : List Json → List String
  | [] => []
  | e :: es => indented indent e :: elemTexts indent es

/-- The texts of members. -/
def memberTexts (indent : String) : List (String × Json) → List String
  | [] => []
  | (k, v) :: ms => (stringText k ++ ": " ++ indented indent v)
      :: memberTexts indent ms

end

end Json

end MirBackend.Text
