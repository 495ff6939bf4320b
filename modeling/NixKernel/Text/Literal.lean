/-!
String literals. A text is written between double quotes, with a backslash before the characters
that would end the literal, start an escape or open an interpolation; a name stands bare where it
is an identifier.
-/

namespace NixKernel.Text

/-! ### The inside of a literal -/

/-- The characters between the quotes. A dollar is escaped only where a brace follows it. -/
def escape : List Char → List Char
  | [] => []
  | '"' :: cs => '\\' :: '"' :: escape cs
  | '\\' :: cs => '\\' :: '\\' :: escape cs
  | '\n' :: cs => '\\' :: 'n' :: escape cs
  | '\r' :: cs => '\\' :: 'r' :: escape cs
  | '\t' :: cs => '\\' :: 't' :: escape cs
  | '$' :: '{' :: cs => '\\' :: '$' :: '{' :: escape cs
  | c :: cs => c :: escape cs

/-- The character that a backslash and `c` stand for. -/
def unescapeChar : Char → Char
  | 'n' => '\n'
  | 'r' => '\r'
  | 't' => '\t'
  | c => c

/-- Undoes the escapes from left to right; a backslash at the very end stands for itself. -/
def unescape : List Char → List Char
  | [] => []
  | ['\\'] => ['\\']
  | '\\' :: c :: cs => unescapeChar c :: unescape cs
  | c :: cs => c :: unescape cs

theorem unescape_cons {c : Char} (h : c ≠ '\\') (cs : List Char) :
    unescape (c :: cs) = c :: unescape cs := by
  cases cs <;> simp [unescape, h]

/-- Undoing the escapes gives the text back. -/
theorem unescape_escape (cs : List Char) : unescape (escape cs) = cs := by
  induction cs using escape.induct with
  | case1 => rfl
  | case2 cs ih | case3 cs ih | case4 cs ih | case5 cs ih | case6 cs ih =>
    simp [escape, unescape, unescapeChar, ih]
  | case7 cs ih =>
    rw [escape, unescape, unescape_cons (by decide), ih]
    rfl
  | case8 c cs h₁ h₂ h₃ h₄ h₅ h₆ ih =>
    rw [escape, unescape_cons h₂, ih] <;> assumption

/-- The literal of a text. -/
def quote (s : String) : String :=
  String.ofList ('"' :: (escape s.toList ++ ['"']))

/-! ### Names -/

/-- An identifier starts with a letter of the ASCII alphabet or an underscore. -/
def isIdentStart (c : Char) : Bool :=
  c == '_' || ('a' ≤ c && c ≤ 'z') || ('A' ≤ c && c ≤ 'Z')

/-- After the first character an identifier also has digits, primes and hyphens. -/
def isIdentRest (c : Char) : Bool :=
  isIdentStart c || ('0' ≤ c && c ≤ '9') || c == '\'' || c == '-'

def isIdent (s : String) : Bool :=
  match s.toList with
  | [] => false
  | c :: cs => isIdentStart c && cs.all isIdentRest

/-- An attribute name as it is printed: bare if it is an identifier, else as a literal. -/
def attrName (name : String) : String :=
  if isIdent name then name else quote name

end NixKernel.Text
