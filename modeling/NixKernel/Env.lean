import NixKernel.Value

/-!
Scopes. A scope has two chains of frames: the shadowing frames of let, recursive sets and
parameters, and the namespaces of with, which are asked only when no shadowing frame binds a name.
-/

namespace NixKernel

/-- A frame of the shadowing chain: a set, one binding, or a set under construction. -/
inductive Frame where
  | set (a : Addr .set)
  | binding (name : String) (v : Value)
  | builder (b : Addr .builder)

/-- The scope in which an expression is evaluated, innermost frames first. -/
structure Env where
  thread : Option (Addr .thread)
  shadow : List Frame
  namespaces : List (Addr .set)

namespace Env

/-- The scope that binds nothing and belongs to no thread. -/
def empty : Env := ⟨none, [], []⟩

instance : Inhabited Env := ⟨empty⟩

/-- Adds an innermost frame to the shadowing chain. -/
def withShadow (env : Env) (f : Frame) : Env := { env with shadow := f :: env.shadow }

/-- Adds an innermost namespace. -/
def withNamespace (env : Env) (a : Addr .set) : Env :=
  { env with namespaces := a :: env.namespaces }

end Env

end NixKernel
