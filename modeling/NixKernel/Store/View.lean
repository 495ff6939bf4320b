import NixKernel.Store.Basic
import NixKernel.Tree

/-!
What can be seen of a value without evaluating anything. The view goes through forced thunks and
stops at the others, and it stops at a container inside itself, so it ends on every store.
-/

namespace NixKernel.Store

/-- The number of lists and sets. -/
def containerCount (s : Store) : Nat := s.lists.cells.size + s.sets.cells.size

/-- The view of a value inside the containers `above`, down to a number of containers inside each
other. -/
def viewWithin (s : Store) : Nat → List Container → Value → Tree
  | levels, above, v =>
    match s.resolve v with
    | .int n => .int n
    | .float x => .float x
    | .bool b => .bool b
    | .null => .null
    | .str t => .str t
    | .path p => .path p
    | .lambda _ => .lambda
    | .thunk _ => .thunk
    | .list a =>
      if Container.list a ∈ above then .repeated
      else match levels with
        | 0 => .repeated
        | n + 1 => .list ((s.list a).map (s.viewWithin n (.list a :: above)))
    | .set a =>
      if Container.set a ∈ above then .repeated
      else match levels with
        | 0 => .repeated
        | n + 1 => .set ((s.attrs a).bindings.map fun p =>
            (p.1, s.viewWithin n (.set a :: above) p.2))

/-- The view of a value. Containers inside each other are all different, so there are no more
levels than containers. -/
def view (s : Store) (v : Value) : Tree := s.viewWithin (s.containerCount + 1) [] v

/-- The text of a value as it is now. -/
def lazyText (s : Store) (v : Value) : String := (s.view v).text

end NixKernel.Store
