import NixKernel.Path

/-!
Threads of evaluation. The set-up of a thread may change at any time, but its directory and its
limit are fixed when it gets its first scope.
-/

namespace NixKernel

/-- How an evaluation is set up. -/
structure Config where
  name : String
  scriptDir : String
  /-- Functions refuse attributes that their pattern does not name. -/
  strict : Bool
  /-- How many thunks may be in the course of being forced; the default if it is not positive. -/
  maxDepth : Int

/-- What is fixed once a thread has its first scope. -/
structure Started where
  dir : Path
  limit : Nat

/-- A thread of evaluation: its set-up, and the number of its thunks that are being forced. -/
structure Thread where
  config : Config
  started : Option Started
  depth : Nat

/-- The number of thunks that may be in the course of being forced unless a thread says
otherwise. -/
def Config.defaultDepth : Nat := 10000

/-- The limit that a set-up asks for. -/
def Config.limit (c : Config) : Nat :=
  if c.maxDepth ≤ 0 then defaultDepth else c.maxDepth.toNat

/-- Fixes the directory and the limit of a thread, the first time. -/
def Thread.start (t : Thread) : Thread :=
  match t.started with
  | some _ => t
  | none => { t with started := some ⟨.ofString t.config.scriptDir, t.config.limit⟩ }

/-- The number of its thunks that a thread allows to be in the course of being forced. -/
def Thread.limit (t : Thread) : Nat :=
  match t.started with
  | some st => st.limit
  | none => t.config.limit

end NixKernel
