import NixKernel.Decimal.Layout
import NixKernel.Error
import NixKernel.Path
import NixKernel.Text.Literal

/-!
Values. A number, a truth value, null, a string and a path stand for themselves; a list, a set, a
function and a thunk are the address of a cell in the store, so that sharing and cycles are plain
data.
-/

namespace NixKernel

/-! ### Addresses -/

/-- The sorts of cells in a store. -/
inductive CellSort where
  | thread | thunk | list | set | lambda | builder
  deriving DecidableEq

/-- The address of a cell of one sort. -/
structure Addr (sort : CellSort) where
  index : Nat
  deriving DecidableEq

/-! ### Values -/

inductive Value where
  | int (n : Int64)
  | float (x : Float)
  | bool (b : Bool)
  | null
  | str (s : String)
  | path (p : Path)
  | list (a : Addr .list)
  | set (a : Addr .set)
  | lambda (a : Addr .lambda)
  | thunk (a : Addr .thunk)

instance : Inhabited Value := ⟨.null⟩

namespace Value

/-- The type of a value; that of a thunk is not known from the value alone. -/
def typeName : Value → TypeName
  | int _ => .int
  | float _ => .float
  | bool _ => .bool
  | null => .null
  | str _ => .string
  | path _ => .path
  | list _ => .list
  | set _ => .set
  | lambda _ => .lambda
  | thunk _ => .thunk

/-- The value is not a thunk. -/
def isWhnf : Value → Bool
  | thunk _ => false
  | _ => true

end Value

/-- A list or a set, as the places where a value can contain itself. -/
inductive Container where
  | list (a : Addr .list)
  | set (a : Addr .set)
  deriving DecidableEq

/-! ### The cells that every store starts with -/

/-- The empty list. -/
def Addr.emptyList : Addr .list := ⟨0⟩

/-- The empty set. -/
def Addr.emptySet : Addr .set := ⟨0⟩

/-- The set of the built-in functions. -/
def Addr.builtins : Addr .set := ⟨1⟩

/-- The set of the names that every root scope binds. -/
def Addr.globals : Addr .set := ⟨2⟩

/-- The function that names the type of its argument. -/
def Addr.typeOf : Addr .lambda := ⟨0⟩

end NixKernel
