import NixKernel.Proofs.Construct.Force
import NixKernel.Proofs.Datum
import NixKernel.Proofs.Path

/-!
Resolution of paths. A walk restarts from the path of a text as well as from the text, so it does
not matter whether a directory is normalised before a text is read in it, and to resolve one text
after another is to resolve both at once. The sum of two paths is the walk along the one and then
along the other, whatever the scope.
-/

namespace NixKernel

namespace Path

variable (dir p q r : Path) {s t : String}

/-! ### Reading after a directory -/

theorem ofString_slash (s t : String) : ofString (s ++ "/" ++ t) = (ofString s).walk t :=
  walk_slash root s t

/-- A text is read after the path of another as it is read after the other. -/
theorem ofString_text_slash (s t : String) :
    ofString ((ofString s).text ++ "/" ++ t) = ofString (s ++ "/" ++ t) := by
  rw [ofString_slash, ofString_slash, ofString_text]

/-- A relative text is a walk from the directory. -/
theorem resolve_relative (h : isAbsolute t = false) : dir.resolve t = dir.walk t := by
  have hneg : ¬ isAbsolute t = true := by simp [h]
  rw [resolve, if_neg hneg, ofString_slash, ofString_text]

/-- Whether a text is absolute shows at its first character. -/
theorem isAbsolute_append (hs : s ≠ "") (t : String) : isAbsolute (s ++ t) = isAbsolute s := by
  have hlist : s.toList ≠ [] := by simpa using hs
  obtain ⟨c, cs, hcs⟩ := List.exists_cons_of_ne_nil hlist
  rw [isAbsolute, isAbsolute, String.toList_append, hcs]
  rfl

/-- **To resolve one text and then another is to resolve both at once.** -/
theorem resolve_resolve (hs : s ≠ "") (ht : isAbsolute t = false) :
    (dir.resolve s).resolve t = dir.resolve (s ++ "/" ++ t) := by
  have hboth : isAbsolute (s ++ "/" ++ t) = isAbsolute s := by
    rw [String.append_assoc, isAbsolute_append hs]
  rw [resolve_relative _ ht]
  cases h : isAbsolute s with
  | true => rw [resolve, resolve, hboth, if_pos h, if_pos h, ofString_slash]
  | false => rw [resolve_relative _ h, resolve_relative _ (hboth.trans h), walk_slash]

/-! ### Sums -/

theorem join_eq : p.join q = p ++ q := by
  rw [join, ofString_slash, ofString_text, walk_text]

theorem segments_join : (p.join q).segments = p.segments ++ q.segments := by
  rw [join_eq]
  rfl

theorem join_assoc : (p.join q).join r = p.join (q.join r) := by
  simp only [join_eq]
  exact congrArg Path.mk (List.append_assoc p.segments q.segments r.segments)

theorem text_root : p.text = "/" ↔ p = root := text_inj (q := root)

theorem join_root : p.join root = p ∧ root.join p = p := by
  constructor
  · rw [join_eq]
    exact congrArg Path.mk (List.append_nil p.segments)
  · rw [join_eq]
    rfl

/-- The text of a path with anything after it is absolute, so it does not matter where it is read.
-/
theorem resolve_text_append (t : String) : dir.resolve (p.text ++ t) = p.extend t := by
  have hne : p.text ≠ "" := by
    intro h
    have habs := isAbsolute_text p
    rw [h] at habs
    cases habs
  rw [resolve, isAbsolute_append hne, if_pos (isAbsolute_text p), extend]

end Path

/-! ### In a scope -/

namespace Store

/-- The first scope of a new thread. -/
def rootScope (s : Store) (c : Config) : Env × Store :=
  let (a, s) := s.newThread c
  s.newEnv a

/-- Relative texts are read in the directory that the thread has been set up with. -/
theorem scriptDir_rootScope (s : Store) (c : Config) :
    (s.rootScope c).2.scriptDir (s.rootScope c).1 = .ofString c.scriptDir := by
  have hcell : (s.rootScope c).2.threads.get? s.threads.next =
      some (Thread.start ⟨c, none, 0⟩) := by
    simp only [rootScope, newThread, newEnv]
    exact Heap.get?_modify_self (Heap.get?_push_next _ _) _
  have hthread : (s.rootScope c).2.thread? (s.rootScope c).1 = some (Thread.start ⟨c, none, 0⟩) :=
    hcell
  rw [scriptDir, hthread]
  rfl

end Store

namespace Comp

variable {env : Env} {s : Store} {l r : Expr} {p : Path} {y z : Value}

theorem eval_toPath (env : Env) (s : Store) (t : String) :
    (eval env (.toPath t)).Ends s (.ok (.path ((s.scriptDir env).resolve t))) s := ⟨1, rfl⟩

/-- The sum of two expressions without effect. -/
theorem eval_add (hl : (eval env l).Ends s (.ok (.path p)) s) (hr : (eval env r).Ends s (.ok y) s)
    (hy : y.isWhnf = true) (hz : (Value.path p).add y = .ok z) :
    (eval env (.binary .add l r)).Ends s (.ok z) s := by
  have hboth : (forceBoth (.path p) y).Ends s (.ok (.path p, y)) s :=
    ends_forceBoth (Store.Forced.self rfl).ends (Store.Forced.self hy).ends
  have hsum : (binary .add (.path p) y).Ends s (.ok z) s := ends_onForced hboth hz
  rw [eval, ends_request, Request.ends_run rfl]
  exact ⟨s, hl.bind (hr.bind hsum), rfl⟩

end Comp

/-- **The resolution of paths composes.** To read a text after a directory is to read it after the
normalised directory; so a relative text names the same path in a thread that is set up with a
directory and in one that is set up with its canonical text. Where a first text leads to a directory
and a relative one is read there, both are read at once if a slash is put between them. The sum of
two paths has the segments of both, whatever the scope and the store; so has that of a path and a
string one result everywhere; both name what their texts name when they are put together. Sums of
paths may be bracketed at will, and a path that is a lone slash adds nothing on either side. -/
theorem path_resolution_composes :
    (∀ base t : String, (Path.ofString (base ++ "/" ++ t)).text =
      (Path.ofString ((Path.ofString base).text ++ "/" ++ t)).text) ∧
    (∀ (s : Store) (c c' : Config) (t : String), Path.isAbsolute t = false →
      c'.scriptDir = (Path.ofString c.scriptDir).text →
      ∃ p, p = Path.ofString (c.scriptDir ++ "/" ++ t) ∧
        (Comp.eval (s.rootScope c).1 (.toPath t)).Ends (s.rootScope c).2 (.ok (.path p))
          (s.rootScope c).2 ∧
        (Comp.eval (s.rootScope c').1 (.toPath t)).Ends (s.rootScope c').2 (.ok (.path p))
          (s.rootScope c').2) ∧
    (∀ (s : Store) (env : Env) (t u : String), t ≠ "" → Path.isAbsolute u = false →
      ∃ p q : Path, (Comp.eval env (.toPath t)).Ends s (.ok (.path p)) s ∧
        (Comp.eval env (.toPath (t ++ "/" ++ u))).Ends s (.ok (.path q)) s ∧
        ∀ c : Config, c.scriptDir = p.text →
          (Comp.eval (s.rootScope c).1 (.toPath u)).Ends (s.rootScope c).2 (.ok (.path q))
            (s.rootScope c).2) ∧
    (∀ p q : Path, ∃ w : Path, w.segments = p.segments ++ q.segments ∧ ∀ (env : Env) (s : Store),
      (Comp.eval env (.binary .add (.lit (.path p)) (.lit (.path q)))).Ends s (.ok (.path w)) s ∧
      (Comp.eval env (.toPath (p.text ++ "/" ++ q.text))).Ends s (.ok (.path w)) s) ∧
    (∀ (p : Path) (t : String), ∃ w : Path, ∀ (env : Env) (s : Store),
      (Comp.eval env (.binary .add (.lit (.path p)) (.lit (.str t)))).Ends s (.ok (.path w)) s ∧
      (Comp.eval env (.toPath (p.text ++ t))).Ends s (.ok (.path w)) s) ∧
    (∀ p q r : Path, ∃ w : Path, ∀ (env : Env) (s : Store),
      (Comp.eval env (.binary .add (.binary .add (.lit (.path p)) (.lit (.path q)))
        (.lit (.path r)))).Ends s (.ok (.path w)) s ∧
      (Comp.eval env (.binary .add (.lit (.path p))
        (.binary .add (.lit (.path q)) (.lit (.path r))))).Ends s (.ok (.path w)) s) ∧
    ∀ z p : Path, z.text = "/" → ∀ (env : Env) (s : Store),
      (Comp.eval env (.binary .add (.lit (.path z)) (.lit (.path p)))).Ends s (.ok (.path p)) s ∧
      (Comp.eval env (.binary .add (.lit (.path p)) (.lit (.path z)))).Ends s (.ok (.path p))
        s := by
  -- a sum of two literal paths, in whatever scope
  have hsum : ∀ (p q : Path) (env : Env) (s : Store),
      (Comp.eval env (.binary .add (.lit (.path p)) (.lit (.path q)))).Ends s
        (.ok (.path (p.join q))) s := fun p q env s =>
    Comp.eval_add (Comp.eval_literal env _) (Comp.eval_literal env _) rfl rfl
  refine ⟨fun base t => ?_, fun s c c' t ht hc => ?_, fun s env t u ht hu => ?_,
    fun p q => ?_, fun p t => ?_, fun p q r => ?_, fun z p hz env s => ?_⟩
  · rw [Path.ofString_text_slash]
  · have hraw := Comp.eval_toPath (s.rootScope c).1 (s.rootScope c).2 t
    have hnormal := Comp.eval_toPath (s.rootScope c').1 (s.rootScope c').2 t
    rw [Store.scriptDir_rootScope, Path.resolve_relative _ ht, ← Path.ofString_slash] at hraw
    rw [Store.scriptDir_rootScope, hc, Path.ofString_text, Path.resolve_relative _ ht,
      ← Path.ofString_slash] at hnormal
    exact ⟨_, rfl, hraw, hnormal⟩
  · refine ⟨_, _, Comp.eval_toPath env s t, Comp.eval_toPath env s _, fun c hc => ?_⟩
    have hthen := Comp.eval_toPath (s.rootScope c).1 (s.rootScope c).2 u
    rwa [Store.scriptDir_rootScope, hc, Path.ofString_text, Path.resolve_resolve _ ht hu] at hthen
  · refine ⟨p.join q, Path.segments_join p q, fun env s => ⟨hsum p q env s, ?_⟩⟩
    have hpath := Comp.eval_toPath env s (p.text ++ "/" ++ q.text)
    rwa [String.append_assoc, Path.resolve_text_append, Path.extend, ← String.append_assoc] at hpath
  · refine ⟨p.extend t, fun env s => ⟨?_, ?_⟩⟩
    · exact Comp.eval_add (Comp.eval_literal env _) (Comp.eval_literal env _) rfl rfl
    · have hpath := Comp.eval_toPath env s (p.text ++ t)
      rwa [Path.resolve_text_append] at hpath
  · refine ⟨(p.join q).join r, fun env s => ⟨?_, ?_⟩⟩
    · exact Comp.eval_add (hsum p q env s) (Comp.eval_literal env _) rfl rfl
    · rw [Path.join_assoc]
      exact Comp.eval_add (Comp.eval_literal env _) (hsum q r env s) rfl rfl
  · obtain rfl := (Path.text_root z).mp hz
    obtain ⟨hright, hleft⟩ := Path.join_root p
    have hzp := hsum Path.root p env s
    have hpz := hsum p Path.root env s
    rw [hleft] at hzp
    rw [hright] at hpz
    exact ⟨hzp, hpz⟩

/-- A thread that is set up with the directory `a/./b/..`: the text `../c` names the same path there
and in the directory `/a`, the texts `x` and `../../c` lead to it one after the other, and to add
the path of `//..` on its left does not change it. -/
theorem path_resolution_composes_up : ∃ p : Path, p.text = "/c" ∧
    (∀ c : Config, c.scriptDir = "a/./b/.." ∨ c.scriptDir = "/a" →
      (Comp.eval (Store.initial.rootScope c).1 (.toPath "../c")).Ends
        (Store.initial.rootScope c).2 (.ok (.path p)) (Store.initial.rootScope c).2) ∧
    (∀ c : Config, c.scriptDir = "/x" →
      (Comp.eval (Store.initial.rootScope c).1 (.toPath "../../c")).Ends
        (Store.initial.rootScope c).2 (.ok (.path p)) (Store.initial.rootScope c).2) ∧
    (Comp.eval .empty (.binary .add (.lit (.path (.ofString "//.."))) (.lit (.path p)))).Ends
      .initial (.ok (.path p)) .initial := by
  obtain ⟨-, hdirs, hafter, -, -, -, hroot⟩ := path_resolution_composes
  have hdir : (Path.ofString "a/./b/..").text = "/a" := by decide
  have hc : Path.ofString ("a/./b/.." ++ "/" ++ "../c") = .ofString "/c" := by decide
  refine ⟨.ofString "/c", by decide, ?_, ?_, (hroot _ _ (by decide) .empty .initial).1⟩
  · rintro c (h | h)
    · obtain ⟨p, hp, hraw, -⟩ := hdirs .initial c { c with scriptDir := "/a" } "../c" rfl
        (by rw [h, hdir])
      rw [h, hc] at hp
      exact hp ▸ hraw
    · obtain ⟨p, hp, -, hnormal⟩ := hdirs .initial { c with scriptDir := "a/./b/.." } c "../c" rfl
        (h.trans hdir.symm)
      rw [hc] at hp
      exact hp ▸ hnormal
  · intro c h
    obtain ⟨p, q, hp, hq, hthen⟩ := hafter .initial .empty "x" "../../c" (by decide) rfl
    obtain ⟨hp', -⟩ := (Comp.eval_toPath .empty .initial "x").unique hp
    obtain ⟨hq', -⟩ := (Comp.eval_toPath .empty .initial ("x" ++ "/" ++ "../../c")).unique hq
    cases hp'
    cases hq'
    exact hthen c (h.trans (by decide))

end NixKernel
