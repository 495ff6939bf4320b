/-!
The types that values have, as programs and messages name them.
-/

namespace NixKernel

/-- The name of the type of a value. A thunk has the type `thunk` until it is forced. -/
inductive TypeName where
  | int | float | bool | null | string | path | list | set | lambda | thunk
  deriving DecidableEq

def TypeName.text : TypeName → String
  | int => "int"
  | float => "float"
  | bool => "bool"
  | null => "null"
  | string => "string"
  | path => "path"
  | list => "list"
  | set => "set"
  | lambda => "lambda"
  | thunk => "thunk"

/-- The name of a type as messages quote it. -/
def TypeName.quoted (t : TypeName) : String := "'" ++ t.text ++ "'"

end NixKernel
