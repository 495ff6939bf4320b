import NixKernel.Eval.Force

/-!
Construction of a set from its entries. The names of the entries are evaluated one after the
other, their values are delayed; entries that share the first name of their paths are collected
and become a set of their own in the final assembly.
-/

namespace NixKernel.Comp

/-! ### Definitions of one attribute -/

/-- The attributes of a set as entries. -/
def entriesOf (m : Attrs Value) : List Entry :=
  m.bindings.map fun p => ⟨[.string p.1], .lit p.2⟩

/-- Takes a value apart into entries so that more can be defined inside it. It must be a set. -/
def takeApart (name : String) (v : Value) : Comp (List Entry) := do
  match ← force v with
  | .set a => return entriesOf (← attrs a)
  | x => refuse (.duplicateTyped name x.typeName)

/-- What is known of an attribute of a set under construction. -/
def slot (b : Addr .builder) (name : String) : Comp (Option Slot) := do
  return (← perform (.builder b)).bind fun c => c.slots.lookup name

/-- Adds entries to those already collected for a name. -/
def collect (b : Addr .builder) (name : String) (entries : List Entry) : Comp Unit := do
  match ← slot b name with
  | some (.tree old) => perform (.setSlot b name (.tree (old ++ entries)) false)
  | _ => perform (.setSlot b name (.tree entries) false)

/-- A second definition of a name. Two values never go together; a value and entries inside it do
if the value is a set. -/
def merge (b : Addr .builder) (name : String) : Slot → Slot → Comp Unit
  | .leaf _, .leaf _ => refuse (.duplicate name)
  | .leaf v, .tree entries => do
    let old ← takeApart name v
    perform (.setSlot b name (.tree (old ++ entries)) false)
  | .tree _, .leaf v => do
    let entries ← takeApart name v
    collect b name entries
  | .tree _, .tree entries => collect b name entries

/-- The definition that an entry makes under the first name of its path. -/
def definition (env : Env) (rest : List Expr) (value : Expr) : Comp Slot :=
  match rest with
  | [] => return .leaf (← newThunk env value)
  | _ :: _ => pure (.tree [⟨rest, value⟩])

/-- Evaluates the first name of an entry and records its definition. An entry whose name is null
defines nothing. -/
def define (b : Addr .builder) (env : Env) (e : Entry) : Comp Unit :=
  match e.path with
  | [] => refuse .emptyAttrPath
  | component :: rest => do
    match ← forceName (← eval env component) with
    | none => pure ()
    | some name =>
      let new ← definition env rest e.value
      match ← slot b name with
      | none => perform (.setSlot b name new true)
      | some old => merge b name old new

/-! ### The whole set -/

/-- Takes up entries until there are none left, at most so many. -/
def takeEntries (b : Addr .builder) : Nat → Comp Unit
  | 0 => pure ()
  | n + 1 => do
    if ← request (.entry b) then takeEntries b n else pure ()

/-- Takes up the entries that are left, unless the set is finished or has failed. If no entry is in
progress, the set is then assembled. -/
def build (b : Addr .builder) : Comp Unit := do
  match ← perform (.builder b) with
  | none => pure ()
  | some c =>
    match c.err, c.set with
    | some e, _ => fail e
    | none, some _ => pure ()
    | none, none =>
      takeEntries b c.entries.size
      match (← perform (.builder b)).map Builder.active with
      | some 0 => discard (request (.assemble b))
      | _ => pure ()

/-- The set of some entries. -/
def construct (env : Env) (entries : List Entry) (recursive : Bool) : Comp (Addr .set) := do
  let b ← perform (.newBuilder env entries recursive)
  request (.build b)
  match (← perform (.builder b)).bind Builder.set with
  | some a => pure a
  | none => refuse .incompleteSet

/-- The value of a slot in the finished set: the entries collected in it become a set. -/
def slotValue (env : Env) (s : Slot) : Comp Value :=
  match s with
  | .leaf v => pure v
  | .tree entries => return .set (← construct env entries false)

/-- Puts the slots together to a set, in the order of their names. -/
def assemble (b : Addr .builder) : Comp (Addr .set) := do
  match ← perform (.builder b) with
  | none => pure .emptySet
  | some c =>
    let bindings ← c.order.mapM fun name => do
      return (name, ← slotValue c.env (← ofCell (c.slots.lookup name)))
    perform (.newSet (.ofList bindings))

/-- The scope of a let: a recursive set as the innermost frame. -/
def letScope (env : Env) (entries : List Entry) : Comp Env := do
  let b ← perform (.newBuilder env entries true)
  request (.build b)
  return ((← perform (.builder b)).map Builder.env).getD env

end NixKernel.Comp
