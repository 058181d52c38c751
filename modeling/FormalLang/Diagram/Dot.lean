import FormalLang.Diagram.Basic

/-!
# DOT texts

A diagram in the DOT language: drawn from left to right, the start node green, accepting nodes with a double
circle, and an arrow from nowhere into the start node.

An identifier is written bare if it is a word of ASCII letters, digits and underscores that does not begin with a
digit, or a decimal numeral, and if it is no keyword of the language. Markup, which stands between angle brackets, is
written bare too. Any other identifier stands in double quotes, a double quote in it after a backslash.
-/

namespace FormalLang

namespace Dot

/-- Is the character an ASCII letter or an underscore? -/
def isWordStart (c : Char) : Bool := c.isAlpha || c = '_'

/-- Is the text a word? -/
def isWord : List Char → Bool
  | [] => false
  | c :: cs => isWordStart c && cs.all fun d => isWordStart d || d.isDigit

/-- Is the text digits with at most one point among them, and with a digit before or after it? -/
def isUnsigned (cs : List Char) : Bool :=
  let whole := cs.takeWhile Char.isDigit
  match cs.dropWhile Char.isDigit with
  | [] => !whole.isEmpty
  | c :: fraction => c = '.' && fraction.all Char.isDigit && !(whole.isEmpty && fraction.isEmpty)

/-- Is the text a decimal numeral, with or without a minus sign? -/
def isNumeral : List Char → Bool
  | '-' :: cs => isUnsigned cs
  | cs => isUnsigned cs

/-- The words with a meaning of their own, in any letter case. -/
def keywords : List String := ["node", "edge", "graph", "digraph", "subgraph", "strict"]

/-- Is an identifier written without quotes? -/
def isBare (s : String) : Bool :=
  (isWord s.toList || isNumeral s.toList) && !keywords.contains s.toLower

/-- Is the text something between angle brackets? -/
def isMarkup : List Char → Bool
  | '<' :: cs => cs.getLast? = some '>'
  | _ => false

/-- A text with a backslash before each double quote. Backslashes go in pairs, and a double quote after one that is left
over has its backslash already. -/
def escapeQuotes (leftOver : Bool) : List Char → List Char
  | [] => []
  | '\\' :: cs => '\\' :: escapeQuotes (!leftOver) cs
  | '"' :: cs => if leftOver then '"' :: escapeQuotes false cs else '\\' :: '"' :: escapeQuotes false cs
  | c :: cs => c :: escapeQuotes false cs

/-- An identifier as it is written. -/
def identifier (s : String) : String :=
  if isBare s || isMarkup s.toList then s
  else String.ofList ('"' :: escapeQuotes false s.toList ++ ['"'])

/-- A property of a node, an edge or the whole drawing, with its value. -/
def setting (name value : String) : String := name ++ "=" ++ identifier value

/-- A statement with its settings, on a line of its own. -/
def statement (subject : String) (settings : List (String × String)) : String :=
  let list := settings.map fun a => setting a.1 a.2
  "\t" ++ subject ++ (if list.isEmpty then "" else " [" ++ String.intercalate " " list ++ "]") ++ "\n"

/-- An arrow from one node to another. -/
def arrow (source target : String) : String := source ++ " -> " ++ target

end Dot

open Dot in
/-- The drawing under the given name; an empty name is left out. -/
def Diagram.toDot (d : Diagram) (name : String := "graph") : String :=
  let heading := if name.isEmpty then "digraph \x7b\n" else "digraph " ++ identifier name ++ " \x7b\n"
  let defaults := [
    statement "graph" [("rankdir", "LR")],
    statement "node" [("fontname", "verdana")],
    statement "edge" [("fontname", "verdana")]]
  let nodes := d.nodes.entries.map fun (id, label) =>
    statement (toString id) [
      ("label", label),
      ("color", if d.start = some id then "green" else ""),
      ("shape", if id ∈ d.accepting then "doublecircle" else "circle")]
  let edges := d.edges.map fun e =>
    statement (arrow (toString e.source) (toString e.target)) (e.label.toList.map ("label", ·))
  let entrance := match d.start with
    | none => []
    | some id => [
        statement "start" [("shape", "none")],
        statement (arrow "start" (toString id)) [("arrowhead", "vee")]]
  heading ++ String.join (defaults ++ nodes ++ edges ++ entrance) ++ "\x7d\n"

end FormalLang
