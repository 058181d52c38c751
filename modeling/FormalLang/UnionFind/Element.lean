import FormalLang.Order
import FormalLang.UnionFind.Basic
import FormalLang.Text.Listing
import FormalLang.Text.Quoted

/-!
# Elements

Items that are integers or texts, for partitions of mixed items. Integers come before texts, and an integer
differs from the text that writes it.

* `UnionFind.description`: the classes as a list of sets.
-/

namespace FormalLang

/-- An integer or a text. -/
inductive Element where
  | integer (n : Int)
  | text (s : String)
  deriving DecidableEq, Repr

namespace Element

/-- The element as an integer or a text. -/
def key : Element → Int ⊕ String
  | integer n => .inl n
  | text s => .inr s

theorem key_injective (a b : Element) (h : a.key = b.key) : a = b := by
  cases a <;> cases b <;> simp_all [key]

/-- Integers by value, then texts by their characters. -/
instance : Ord Element := ⟨compareKey compareSum key⟩

instance : Std.TransOrd Element := transCmp_compareKey key

instance : Std.LawfulEqOrd Element := lawfulEqCmp_compareKey key_injective

/-- The text of an element. -/
def description : Element → String
  | integer n => toString n
  | text s => Text.quoted s

end Element

/-- The classes as a list of sets, and the forest after they have been found. -/
def UnionFind.description (u : UnionFind Element) : String × UnionFind Element :=
  let (classes, u) := u.classes
  (Text.listing (classes.map fun s => Text.setListing (s.toList.map Element.description)), u)

end FormalLang
