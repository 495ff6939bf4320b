import NixKernel.Value

/-!
Values spelled out. A tree is what can be seen of a value without looking into the store again;
its text is the printed form of the value.
-/

namespace NixKernel

/-- A value spelled out. A container inside itself is `repeated`, and what is not evaluated yet is
a `thunk`. -/
inductive Tree where
  | int (n : Int64)
  | float (x : Float)
  | bool (b : Bool)
  | null
  | str (s : String)
  | path (p : Path)
  | lambda
  | list (items : List Tree)
  | set (items : List (String × Tree))
  | repeated
  | thunk

instance : Inhabited Tree := ⟨.null⟩

namespace Tree

mutual

/-- The printed form of a value. -/
def text : Tree → String
  | int n => Int.repr n.toInt
  | float x => Decimal.Layout.general.writeDouble x.toBits
  | bool b => if b then "true" else "false"
  | null => "null"
  | str s => Text.quote s
  | path p => p.text
  | lambda => "<LAMBDA>"
  | list items => "[ " ++ itemsText items ++ "]"
  | set items => "\x7b " ++ attrsText items ++ "\x7d"
  | repeated => "<repeated>"
  | thunk => "<thunk>"

/-- The elements of a list, each with a space after it. -/
def itemsText : List Tree → String
  | [] => ""
  | t :: ts => t.text ++ " " ++ itemsText ts

/-- The attributes of a set, each with a semicolon and a space after it. -/
def attrsText : List (String × Tree) → String
  | [] => ""
  | (name, t) :: ts => Text.attrName name ++ " = " ++ t.text ++ "; " ++ attrsText ts

end

end Tree

end NixKernel
