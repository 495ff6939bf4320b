/-!
File system paths. A path is the list of its segments from the root; a text is read as a walk that
starts at a directory, where an empty segment or a dot stays, two dots go up and any other name
goes down.
-/

namespace NixKernel

/-! ### Segments -/

/-- A name that can stand in a path. -/
def ValidSegment (s : String) : Prop := s ≠ "" ∧ s ≠ "." ∧ s ≠ ".." ∧ '/' ∉ s.toList

instance (s : String) : Decidable (ValidSegment s) :=
  inferInstanceAs (Decidable (_ ∧ _))

structure Segment where
  name : String
  valid : ValidSegment name
  deriving DecidableEq

/-- An absolute path without dots, given by its segments from the root. -/
structure Path where
  segments : List Segment
  deriving DecidableEq

namespace Path

/-- The root directory. -/
def root : Path := ⟨[]⟩

instance : Inhabited Path := ⟨root⟩

/-- The directory above; the root is above itself. -/
def parent (p : Path) : Path := ⟨p.segments.dropLast⟩

/-- The entry of a directory under a name. -/
def child (p : Path) (s : Segment) : Path := ⟨p.segments ++ [s]⟩

/-- The walk of the segments of one path from the end of another. -/
protected def append (p q : Path) : Path := ⟨p.segments ++ q.segments⟩

instance : Append Path := ⟨Path.append⟩

/-! ### The text of a path -/

/-- A slash before each segment, and a lone slash for the root. -/
def text (p : Path) : String :=
  match p.segments with
  | [] => "/"
  | ss => String.join (ss.map fun s => "/" ++ s.name)

/-! ### Reading a path -/

/-- The pieces of a text between its slashes. -/
def pieces : List Char → List (List Char)
  | [] => [[]]
  | c :: cs =>
    if c = '/' then [] :: pieces cs
    else match pieces cs with
      | [] => [[c]]
      | s :: ss => (c :: s) :: ss

/-- One step of a walk. A piece never holds a slash, so it stays, goes up or goes down. -/
def step (p : Path) (piece : String) : Path :=
  if h : ValidSegment piece then p.child ⟨piece, h⟩
  else if piece = ".." then p.parent
  else p

/-- The walk along a text from a directory. -/
def walk (p : Path) (s : String) : Path :=
  ((pieces s.toList).map String.ofList).foldl step p

/-- The path that a text names from the root. -/
def ofString (s : String) : Path := root.walk s

/-- A text that starts with a slash names a path from the root. -/
def isAbsolute (s : String) : Bool := s.toList.head? == some '/'

/-- The path that a text names in a directory: from the root if it is absolute, else from the
directory. -/
def resolve (dir : Path) (s : String) : Path :=
  if isAbsolute s then ofString s else ofString (dir.text ++ "/" ++ s)

/-- The path that the text of a path names when a string is written after it. -/
def extend (p : Path) (s : String) : Path := ofString (p.text ++ s)

/-- The path that the texts of two paths name when they are joined by a slash. -/
def join (p q : Path) : Path := ofString (p.text ++ "/" ++ q.text)

end Path

end NixKernel
