import FormalLang.Text.Printable

/-!
# Quoted texts

A text is quoted with apostrophes, or with double quotes if it holds an apostrophe and no double quote. A
backslash and the quote in use are written after a backslash, as are `n`, `r` and `t` for the three common
controls; any other character that is not printable is written by its code point in hexadecimal, with two,
four or eight digits.

* `quoted_plain`: a text of printable characters without quotes and backslashes is written as it is.
-/

namespace FormalLang.Text

/-- The last `n` hexadecimal digits of a number. -/
def hexDigits : Nat → Nat → List Char
  | 0, _ => []
  | n + 1, v => hexDigits n (v / 16) ++ [Nat.digitChar (v % 16)]

/-- A character between quotes. -/
def escaped (quote c : Char) : List Char :=
  if c = quote || c = '\\' then ['\\', c]
  else if c = '\n' then ['\\', 'n']
  else if c = '\r' then ['\\', 'r']
  else if c = '\t' then ['\\', 't']
  else if isPrintable c then [c]
  else if c.toNat < 0x100 then '\\' :: 'x' :: hexDigits 2 c.toNat
  else if c.toNat < 0x10000 then '\\' :: 'u' :: hexDigits 4 c.toNat
  else '\\' :: 'U' :: hexDigits 8 c.toNat

/-- The quote that a text is written with. -/
def quoteFor (cs : List Char) : Char := if '\'' ∈ cs ∧ '"' ∉ cs then '"' else '\''

/-- A text in quotes. -/
def quotedChars (cs : List Char) : List Char :=
  let quote := quoteFor cs
  quote :: cs.flatMap (escaped quote) ++ [quote]

/-- A text in quotes. -/
def quoted (s : String) : String := String.ofList (quotedChars s.toList)

theorem quoted_plain {cs : List Char}
    (h : ∀ c ∈ cs, isPrintable c = true ∧ c ≠ '\'' ∧ c ≠ '"' ∧ c ≠ '\\') :
    quotedChars cs = '\'' :: cs ++ ['\''] := by
  have hq : quoteFor cs = '\'' := by
    have : '\'' ∉ cs := fun hm => (h _ hm).2.1 rfl
    simp [quoteFor, this]
  have he : ∀ c ∈ cs, escaped '\'' c = [c] := fun c hc => by
    obtain ⟨hp, h1, -, h2⟩ := h c hc
    have hn : c ≠ '\n' := by rintro rfl; exact absurd hp (by decide)
    have hr : c ≠ '\r' := by rintro rfl; exact absurd hp (by decide)
    have ht : c ≠ '\t' := by rintro rfl; exact absurd hp (by decide)
    simp [escaped, h1, h2, hn, hr, ht, hp]
  have hf : cs.flatMap (escaped '\'') = cs := by
    clear hq h
    induction cs with
    | nil => rfl
    | cons c cs ih =>
      rw [List.flatMap_cons, he c (by simp), ih fun x hx => he x (by simp [hx])]
      rfl
  simp only [quotedChars, hq, hf]

end FormalLang.Text
