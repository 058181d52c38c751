/-!
# Listings

Items between brackets, with a comma and a space between neighbours: the text of a list `[a, b]`, a set
`{a, b}` or a tuple `(a, b)`. A set without elements is named in words, and a tuple of one component ends with a
comma.
-/

namespace FormalLang.Text

/-- The items, a comma and a space between neighbours. -/
def commaSeparated (items : List String) : String := String.intercalate ", " items

/-- The text of a list. -/
def listing (items : List String) : String := "[" ++ commaSeparated items ++ "]"

/-- The text of a set. -/
def setListing (items : List String) : String :=
  if items.isEmpty then "set()" else "\x7b" ++ commaSeparated items ++ "\x7d"

/-- The text of a tuple. -/
def tupleListing : List String → String
  | [item] => "(" ++ item ++ ",)"
  | items => "(" ++ commaSeparated items ++ ")"

/-- The text of a map: each key and value with a colon between them. -/
def mapListing (entries : List (String × String)) : String :=
  "\x7b" ++ commaSeparated (entries.map fun e => e.1 ++ ": " ++ e.2) ++ "\x7d"

end FormalLang.Text
