import NixKernel.Proofs.Outcome

/-!
Paths and their texts. A walk along two texts with a slash between them is one walk after the other,
so a text is read piece by piece. The text of a path leads from any directory along the segments of
the path; so a path is read back from its text, and the texts that reading and writing leave alone
are the canonical ones.
-/

namespace NixKernel

namespace Path

/-! ### The pieces of a text -/

theorem pieces_ne_nil (cs : List Char) : pieces cs ≠ [] := by
  cases cs with
  | nil => simp [pieces]
  | cons c cs =>
    unfold pieces
    split
    · simp
    · split <;> simp

/-- The pieces before a slash and those after it. -/
theorem pieces_append_slash (cs ds : List Char) :
    pieces (cs ++ '/' :: ds) = pieces cs ++ pieces ds := by
  induction cs with
  | nil => simp [pieces]
  | cons c cs ih =>
    by_cases hc : c = '/'
    · simp [pieces, hc, ih]
    · obtain ⟨x, xs, hx⟩ := List.exists_cons_of_ne_nil (pieces_ne_nil cs)
      simp [pieces, hc, ih, hx]

theorem pieces_eq_singleton {cs : List Char} (h : '/' ∉ cs) : pieces cs = [cs] := by
  induction cs with
  | nil => rfl
  | cons c cs ih =>
    have hc : c ≠ '/' := fun hc => h (by simp [hc])
    have hcs : '/' ∉ cs := fun hm => h (List.mem_cons_of_mem c hm)
    simp [pieces, hc, ih hcs]

/-! ### Walks -/

variable (p q : Path)

/-- A walk along two texts with a slash between them is one walk after the other. -/
theorem walk_slash (s t : String) : p.walk (s ++ "/" ++ t) = (p.walk s).walk t := by
  have hlist : (s ++ "/" ++ t).toList = s.toList ++ '/' :: t.toList := by
    simp [String.toList_append]
  simp only [walk, hlist, pieces_append_slash, List.map_append, List.foldl_append]

/-- A text without slashes is one step. -/
theorem walk_piece {s : String} (h : '/' ∉ s.toList) : p.walk s = p.step s := by
  simp [walk, pieces_eq_singleton h]

theorem step_empty : p.step "" = p := by
  simp [step, ValidSegment]

theorem step_up : p.step ".." = p.parent := by
  simp [step, ValidSegment]

theorem step_segment (x : Segment) : p.step x.name = p.child x := by
  simp [step, x.valid]

theorem walk_empty : p.walk "" = p := by
  rw [walk_piece p (by simp), step_empty]

theorem walk_segment (x : Segment) : p.walk x.name = p.child x := by
  rw [walk_piece p x.valid.2.2.2, step_segment]

/-- A slash in front of a text does not change where it leads from a directory. -/
theorem walk_slash_left (s : String) : p.walk ("/" ++ s) = p.walk s := by
  have h := walk_slash p "" s
  rwa [String.empty_append, walk_empty] at h

/-! ### The text of a path -/

/-- The text of segments, each with a slash before it, leads along them. -/
theorem walk_segments (x : Segment) (xs : List Segment) :
    p.walk (String.join ((x :: xs).map fun x => "/" ++ x.name)) = ⟨p.segments ++ x :: xs⟩ := by
  induction xs generalizing p x with
  | nil => simp [String.join_cons, walk_slash_left, walk_segment, child]
  | cons y ys ih =>
    have hsplit : String.join ((x :: y :: ys).map fun x => "/" ++ x.name) =
        "/" ++ x.name ++ "/" ++ (y.name ++ String.join (ys.map fun x => "/" ++ x.name)) := by
      simp [String.join_cons, String.append_assoc]
    have hnext : p.walk ("/" ++ x.name) = p.child x := by
      rw [walk_slash_left, walk_segment]
    rw [hsplit, walk_slash, hnext, ← walk_slash_left, ← String.append_assoc]
    have hrest := ih (p.child x) y
    rw [List.map_cons, String.join_cons] at hrest
    rw [hrest]
    simp [child]

/-- The text of a path leads from every directory along the segments of the path. -/
theorem walk_text : p.walk q.text = p ++ q := by
  obtain ⟨xs⟩ := q
  cases xs with
  | nil =>
    have hroot : p.walk "/" = p := by
      have h := walk_slash_left p ""
      rwa [String.append_empty, walk_empty] at h
    rw [text, hroot]
    exact congrArg Path.mk (List.append_nil p.segments).symm
  | cons x xs => exact walk_segments p x xs

/-- **A path is read back from its text.** -/
theorem ofString_text : ofString p.text = p := walk_text root p

theorem text_inj {p q : Path} : p.text = q.text ↔ p = q := by
  refine ⟨fun h => ?_, fun h => h ▸ rfl⟩
  rw [← ofString_text p, h, ofString_text q]

theorem isAbsolute_text : isAbsolute p.text = true := by
  obtain ⟨xs⟩ := p
  cases xs with
  | nil => rfl
  | cons x xs => simp [isAbsolute, text, String.join_cons, String.toList_append]

/-- The text of a path names it in every directory. -/
theorem resolve_text (dir : Path) : dir.resolve p.text = p := by
  rw [resolve, if_pos (isAbsolute_text p), ofString_text]

/-! ### Up -/

/-- So many steps up. -/
def ups (n : Nat) : String := String.join (List.replicate n "../")

theorem ups_succ (n : Nat) : ups (n + 1) = "../" ++ ups n := by
  simp [ups, List.replicate_succ, String.join_cons]

/-- Each step up takes the last segment away, until there is none left. -/
theorem walk_ups (n : Nat) (s : String) :
    p.walk (ups n ++ s) = walk ⟨p.segments.take (p.segments.length - n)⟩ s := by
  induction n generalizing p with
  | zero => simp [ups]
  | succ n ih =>
    have hsplit : ups (n + 1) ++ s = ".." ++ "/" ++ (ups n ++ s) := by
      rw [ups_succ, String.append_assoc]
      rfl
    have hup : p.walk ".." = p.parent := by
      rw [walk_piece p (by decide), step_up]
    have htake : p.segments.dropLast.take (p.segments.dropLast.length - n) =
        p.segments.take (p.segments.length - (n + 1)) := by
      rw [List.dropLast_eq_take, List.take_take, List.length_take]
      congr 1
      omega
    rw [hsplit, walk_slash, hup, ih, parent, htake]

/-! ### Canonical texts -/

/-- A slash, and after it segments with single slashes between them. The root is a lone slash. -/
def Canonical (s : String) : Prop :=
  ∃ names : List String, (∀ x ∈ names, ValidSegment x) ∧ s = "/" ++ "/".intercalate names

theorem join_eq_intercalate (x : String) (xs : List String) :
    String.join ((x :: xs).map ("/" ++ ·)) = "/" ++ "/".intercalate (x :: xs) := by
  induction xs generalizing x with
  | nil => simp [String.join_cons]
  | cons y ys ih =>
    rw [List.map_cons, String.join_cons, ih, String.intercalate_cons_cons]
    simp only [String.append_assoc]

theorem text_eq_intercalate : p.text = "/" ++ "/".intercalate (p.segments.map Segment.name) := by
  obtain ⟨xs⟩ := p
  cases xs with
  | nil => rfl
  | cons x xs =>
    have h := join_eq_intercalate x.name (xs.map Segment.name)
    rw [← List.map_cons, List.map_map] at h
    exact h

theorem canonical_text : Canonical p.text := by
  refine ⟨p.segments.map Segment.name, ?_, text_eq_intercalate p⟩
  intro x hx
  obtain ⟨y, -, rfl⟩ := List.mem_map.mp hx
  exact y.valid

/-- The canonical texts are those of the paths. -/
theorem exists_text {s : String} (h : Canonical s) : ∃ p : Path, p.text = s := by
  obtain ⟨names, hvalid, rfl⟩ := h
  refine ⟨⟨names.pmap Segment.mk hvalid⟩, ?_⟩
  rw [text_eq_intercalate, List.map_pmap]
  simp

/-- A text is canonical if and only if it is the text of the path that it names. -/
theorem canonical_iff {s : String} : Canonical s ↔ (ofString s).text = s := by
  constructor
  · intro h
    obtain ⟨p, rfl⟩ := exists_text h
    rw [ofString_text]
  · intro h
    rw [← h]
    exact canonical_text _

/-- More steps up than there are segments lead to the root, and what follows is read from there. -/
theorem ofString_ups (n : Nat) (t : String) :
    ofString (p.text ++ "/" ++ (ups (p.segments.length + n) ++ t)) = ofString t := by
  have hroot : walk ⟨p.segments.take (p.segments.length - (p.segments.length + n))⟩ t =
      root.walk t := by
    rw [show p.segments.length - (p.segments.length + n) = 0 by omega, List.take_zero]
    rfl
  rw [ofString, walk_slash, walk_ups]
  rw [show root.walk p.text = p from ofString_text p, hroot]
  rfl

end Path

/-! ### Paths in a run -/

/-- **Every path is canonical.** Whatever a path has been made of, it is printed as its text, and
that is canonical; so is the directory of every scope. A text is canonical if and only if reading
leaves it alone. A path is read back from its text, from the root as in every scope. And no number
of steps up leads out of the root. -/
theorem path_canonical :
    (∀ (p : Path) (s : Store), (Comp.print (.path p)).Ends s (.ok p.text) s ∧
      Path.Canonical p.text) ∧
    (∀ (env : Env) (s : Store), ∃ dir, (Comp.eval env .scriptDir).Ends s (.ok (.str dir)) s ∧
      Path.Canonical dir) ∧
    (∀ t, Path.Canonical t ↔ (Path.ofString t).text = t) ∧
    (∀ p : Path, Path.ofString p.text = p) ∧
    (∀ (p : Path) (env : Env) (s : Store),
      (Comp.eval env (.toPath p.text)).Ends s (.ok (.path p)) s) ∧
    ∀ (p : Path) (n : Nat) (t : String),
      Path.ofString (p.text ++ "/" ++ (Path.ups (p.segments.length + n) ++ t)) =
        Path.ofString t := by
  refine ⟨fun p s => ⟨?_, p.canonical_text⟩, fun env s => ?_, fun t => Path.canonical_iff,
    Path.ofString_text, fun p env s => ?_, Path.ofString_ups⟩
  · exact ⟨1, rfl⟩
  · exact ⟨(s.scriptDir env).text, ⟨1, rfl⟩, Path.canonical_text _⟩
  · have hrun : (Comp.eval env (.toPath p.text)).Ends s
        (.ok (.path ((s.scriptDir env).resolve p.text))) s := ⟨1, rfl⟩
    rwa [Path.resolve_text] at hrun

/-- The root is above itself, and a walk may go up and down again. -/
example : (Path.ofString "a/../../b//./c/").text = "/b/c" ∧
    ((Path.ofString "/base").resolve "../../x/.").text = "/x" := by decide

end NixKernel
