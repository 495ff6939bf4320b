/-!
The operators of the language, with the texts and the numbers that stand for them.
-/

namespace NixKernel

/-- The operators, and `illegal` for what is none. -/
inductive Operator where
  | illegal
  | add | sub | mul | div
  | update | concat | has | select
  | eq | ne | lt | gt | ge | le
  | and | or | implies | not
  deriving DecidableEq, Inhabited

namespace Operator

/-- Every operator once, in the order of their numbers. -/
def all : List Operator :=
  [illegal, add, sub, mul, div, update, concat, has, select, eq, ne, lt, gt, ge, le, and, or,
    implies, not]

/-- The text of an operator. -/
def symbol : Operator → String
  | illegal => "illegal token"
  | add => "+"
  | sub => "-"
  | mul => "*"
  | div => "/"
  | update => "//"
  | concat => "++"
  | has => "?"
  | select => "."
  | eq => "=="
  | ne => "!="
  | lt => "<"
  | gt => ">"
  | ge => ">="
  | le => "<="
  | and => "&&"
  | or => "||"
  | implies => "->"
  | not => "!"

/-- The text of an operator as messages quote it. -/
def quoted (o : Operator) : String :=
  if o = illegal then o.symbol else "'" ++ o.symbol ++ "'"

/-- The operators that compare. -/
def isRelational : Operator → Bool
  | eq | ne | lt | gt | ge | le => true
  | _ => false

/-- The number of an operator. -/
def code (o : Operator) : Nat := all.idxOf o

/-- The operator of a number, `illegal` outside the range. -/
def ofCode (n : Int) : Operator :=
  if n < 0 then illegal else (all[n.toNat]?).getD illegal

/-- The operator that a text stands for. -/
def ofSymbol (s : String) : Operator :=
  ((all.drop 1).find? fun o => o.symbol == s).getD illegal

theorem mem_all (o : Operator) : o ∈ all := by
  cases o <;> decide

theorem ofCode_code (o : Operator) : ofCode o.code = o := by
  cases o <;> decide

theorem ofSymbol_symbol (o : Operator) : ofSymbol o.symbol = o := by
  cases o <;> decide

end Operator

end NixKernel
