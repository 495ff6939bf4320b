import NixKernel.Proofs.Builder.Lookup
import NixKernel.Proofs.Journal
import NixKernel.Proofs.Spelling

/-!
Calls of functions that take a pattern. The argument is checked against the pattern before anything
is bound. Then one new frame is put onto the scope of the definition, and it is filled after the
thunks of the defaults have been given that larger scope: so a default sees every parameter, those
that come after it too, and calling forces nothing.
-/

namespace NixKernel

variable {s s' : Store} {formals fs : List Formal} {args : Attrs Value} {inner : Env}
  {name : String} {v : Value}

/-! ### The check -/

/-- An attribute of the argument that no formal is for. -/
def Undeclared (formals : List Formal) (args : Attrs Value) (k : String) : Prop :=
  k ∈ args.keys ∧ ∀ f ∈ formals, f.name ≠ k

/-- A call is not to take attributes that its pattern does not name, and there are some. -/
def Refuses (strict openEnded : Bool) (formals : List Formal) (args : Attrs Value) : Prop :=
  strict = true ∧ openEnded = false ∧ ∃ k, Undeclared formals args k

/-- The argument does not have a formal that has no default. -/
def Lacking (args : Attrs Value) (f : Formal) : Prop :=
  f.fallback = none ∧ args.get? f.name = none

namespace Comp

theorem unexpected?_eq_none :
    unexpected? formals args = none ↔ ∀ k, ¬ Undeclared formals args k := by
  simp [unexpected?, Undeclared]

/-- The attribute that is refused is the least one. -/
theorem unexpected?_eq_some {k : String} (h : unexpected? formals args = some k) :
    Undeclared formals args k ∧ ∀ j, Undeclared formals args j → k = j ∨ Text.Before k j := by
  obtain ⟨hk, before, after, hkeys, hbefore⟩ := List.find?_eq_some_iff_append.mp h
  have hsorted : args.keys.Pairwise Text.Before := List.pairwise_map.mpr args.ascending
  have hmem : ∀ j, j ∈ args.keys ↔ j ∈ before ∨ j = k ∨ j ∈ after := by
    intro j
    rw [hkeys, List.mem_append, List.mem_cons]
  refine ⟨⟨(hmem k).mpr (.inr (.inl rfl)), by simpa using hk⟩, ?_⟩
  rintro j ⟨hj, hfree⟩
  rcases (hmem j).mp hj with hj | rfl | hj
  · have hdeclared := hbefore j hj
    simp only [Bool.not_not, List.any_eq_true, beq_iff_eq] at hdeclared
    obtain ⟨f, hf, hname⟩ := hdeclared
    exact absurd hname (hfree f hf)
  · exact .inl rfl
  · rw [hkeys, List.pairwise_append] at hsorted
    exact .inr ((List.pairwise_cons.mp hsorted.2.1).1 j hj)

theorem lacking_iff {f : Formal} :
    (f.fallback.isNone && (args.get? f.name).isNone) = true ↔ Lacking args f := by
  simp [Lacking]

theorem missing?_eq_none : missing? formals args = none ↔ ∀ f ∈ formals, ¬ Lacking args f := by
  simp [missing?, Lacking]

/-- The formal that is found missing is the first one. -/
theorem missing?_eq_some (h : missing? formals args = some name) :
    ∃ before f after, formals = before ++ f :: after ∧ f.name = name ∧ Lacking args f ∧
      ∀ g ∈ before, ¬ Lacking args g := by
  obtain ⟨f, hf, rfl⟩ := Option.map_eq_some_iff.mp h
  obtain ⟨hlack, before, after, rfl, hbefore⟩ := List.find?_eq_some_iff_append.mp hf
  refine ⟨before, f, after, rfl, rfl, lacking_iff.mp hlack, fun g hg hlack' => ?_⟩
  have hnot := hbefore g hg
  rw [lacking_iff.mpr hlack'] at hnot
  cases hnot

/-- What the check says: attributes that are too many are refused first, then those that are missing
are. -/
theorem checkArgs_cases (strict : Bool) (param : Param) (formals : List Formal) (openEnded : Bool)
    (args : Attrs Value) :
    (Refuses strict openEnded formals args ∧ ∃ k, unexpected? formals args = some k ∧
      checkArgs strict param formals openEnded args = .error (.unexpectedArg k)) ∨
    (¬ Refuses strict openEnded formals args ∧ ∃ name, missing? formals args = some name ∧
      checkArgs strict param formals openEnded args = .error (.missingArg param.describe name)) ∨
    (¬ Refuses strict openEnded formals args ∧ missing? formals args = none ∧
      checkArgs strict param formals openEnded args = .ok ()) := by
  unfold checkArgs
  cases hk : (if (strict && !openEnded) = true then unexpected? formals args else none) with
  | some k =>
    obtain ⟨hclosed, hk⟩ := Option.ite_none_right_eq_some.mp hk
    have hclosed : strict = true ∧ openEnded = false := by simpa using hclosed
    exact .inl ⟨⟨hclosed.1, hclosed.2, k, (unexpected?_eq_some hk).1⟩, k, hk, rfl⟩
  | none =>
    have hfits : ¬ Refuses strict openEnded formals args := by
      rintro ⟨rfl, rfl, k, hundeclared⟩
      exact unexpected?_eq_none.mp (by simpa using hk) k hundeclared
    cases hm : missing? formals args with
    | some name => exact .inr (.inl ⟨hfits, name, rfl, rfl⟩)
    | none => exact .inr (.inr ⟨hfits, rfl, rfl⟩)

end Comp

/-! ### The frame -/

/-- What the formals of a pattern bind a name to: the attribute of the argument as it is stored, or
if there is none a new thunk of the default, which is that of the last formal of the name. -/
inductive Parameter (inner : Env) (args : Attrs Value) (old new : Heap .thunk Thunk)
    (formals : List Formal) : String → Value → Prop
  | given {f : Formal} {v : Value} (mem : f ∈ formals) (attr : args.get? f.name = some v) :
      Parameter inner args old new formals f.name v
  | fallback {before after : List Formal} {f : Formal} {d : Expr} {t : Addr .thunk}
      (order : formals = before ++ f :: after) (last : ∀ g ∈ after, g.name ≠ f.name)
      (missing : args.get? f.name = none) (default : f.fallback = some d)
      (fresh : old.get? t = none) (cell : new.get? t = some (.unforced inner d)) :
      Parameter inner args old new formals f.name (.thunk t)

section Frame

variable {old mid new : Heap .thunk Thunk} {vars vars' : Attrs Value} {f : Formal}

theorem Parameter.cons (h : Parameter inner args mid new fs name v)
    (hold : ∀ t, mid.get? t = none → old.get? t = none) :
    Parameter inner args old new (f :: fs) name v := by
  cases h with
  | given mem attr => exact .given (List.mem_cons_of_mem f mem) attr
  | fallback order last missing default fresh cell =>
    exact .fallback (order ▸ List.cons_append.symm) last missing default (hold _ fresh) cell

theorem Parameter.mem (h : Parameter inner args old new fs name v) :
    ∃ f ∈ fs, f.name = name := by
  cases h with
  | given mem _ => exact ⟨_, mem, rfl⟩
  | fallback order => exact ⟨_, order ▸ List.mem_append_right _ List.mem_cons_self, rfl⟩

/-- What has become of a name once the formals are bound: one of them binds it, or they leave it as
it is. -/
def Bound (inner : Env) (args : Attrs Value) (fs : List Formal) (name : String)
    (acc acc' : Attrs Value × Heap .thunk Thunk) : Prop :=
  (∃ v, acc'.1.get? name = some v ∧ Parameter inner args acc.2 acc'.2 fs name v) ∨
    (∀ f ∈ fs, f.name ≠ name) ∧ acc'.1.get? name = acc.1.get? name

/-- One formal more: it counts if none of the others is of its name. -/
theorem Bound.cons (h : Bound inner args fs name (vars.insert f.name v, mid) (vars', new))
    (hold : ∀ t, mid.get? t = none → old.get? t = none)
    (hlast : (∀ g ∈ fs, g.name ≠ f.name) → Parameter inner args old new (f :: fs) f.name v) :
    Bound inner args (f :: fs) name (vars, old) (vars', new) := by
  rcases h with ⟨x, hx, hparam⟩ | ⟨hnone, hsame⟩
  · exact .inl ⟨x, hx, hparam.cons hold⟩
  · rw [Attrs.get?_insert] at hsame
    by_cases hname : name = f.name
    · subst hname
      rw [if_pos rfl] at hsame
      exact .inl ⟨v, hsame, hlast hnone⟩
    · rw [if_neg hname] at hsame
      exact .inr ⟨List.forall_mem_cons.mpr ⟨Ne.symm hname, hnone⟩, hsame⟩

/-- Into an empty frame the formals bind their own names only. -/
theorem Bound.names {acc : Attrs Value × Heap .thunk Thunk}
    (h : Bound inner args fs name (.empty, old) acc) :
    (∃ v, acc.1.get? name = some v) ↔ ∃ g ∈ fs, g.name = name := by
  rcases h with ⟨v, hv, hparam⟩ | ⟨hnone, hsame⟩
  · exact iff_of_true ⟨v, hv⟩ hparam.mem
  · rw [hsame]
    exact iff_of_false (by simp [Attrs.get?_empty]) fun ⟨g, hg, hname⟩ => hnone g hg hname

theorem Bound.value {acc : Attrs Value × Heap .thunk Thunk}
    (h : Bound inner args fs name (.empty, old) acc) (hv : acc.1.get? name = some v) :
    Parameter inner args old acc.2 fs name v := by
  rcases h with ⟨x, hx, hparam⟩ | ⟨-, hsame⟩
  · cases hx.symm.trans hv
    exact hparam
  · rw [hsame] at hv
    cases hv

/-- The formals of a pattern that an argument fits are all bound, and nothing else is. -/
theorem Store.bindFormals_bound (hfit : ∀ f ∈ fs, ¬ Lacking args f) (name : String)
    (acc : Attrs Value × Heap .thunk Thunk) :
    Bound inner args fs name acc (bindFormals inner args fs acc) := by
  induction fs generalizing acc with
  | nil => exact .inr ⟨by simp, rfl⟩
  | cons f fs ih =>
    obtain ⟨vars, old⟩ := acc
    have hrest := ih fun g hg => hfit g (List.mem_cons_of_mem f hg)
    unfold bindFormals
    split
    · rename_i v hv
      exact (hrest _).cons (fun _ => id) fun _ => .given List.mem_cons_self hv
    · rename_i d hnone hd
      refine (hrest _).cons (fun t ht => ?_) fun hlast => ?_
      · rw [Heap.get?_push] at ht
        split at ht
        · cases ht
        · exact ht
      · have hcell := get?_bindFormals inner args fs
          (vars.insert f.name (.thunk old.next), old.push (.unforced inner d))
          (Heap.get?_push_next old _)
        exact .fallback (List.nil_append _).symm hlast hnone hd (Heap.get?_next old) hcell
    · rename_i hnone hd
      exact absurd ⟨hd, hnone⟩ (hfit f List.mem_cons_self)

end Frame

/-! ### The scope of the body -/

/-- From `s` to `s'` the body of a function has been entered with an argument: one new set is the
frame that `inner` puts onto the scope of the definition. -/
structure Store.Entered (s s' : Store) (f : Addr .lambda) (inner : Env) (formals : List Formal)
    (whole : Option String) (a : Addr .set) (args vars : Attrs Value) : Prop where
  /-- What was there is as it was. -/
  grown : s.Extends s'
  /-- What is new among the thunks has not been forced. -/
  delayed : ∀ t c, s'.thunks.get? t = some c →
    s.thunks.get? t = some c ∨ ∃ env body, c = .unforced env body
  journal : s'.journal = .call f :: s.journal
  frame : s'.sets = s.sets.push vars
  names : ∀ name, (∃ v, vars.get? name = some v) ↔
    whole = some name ∨ ∃ g ∈ formals, g.name = name
  values : ∀ name v, vars.get? name = some v → (whole = some name ∧ v = .set a) ∨
    (whole ≠ some name ∧ Parameter inner args s.thunks s'.thunks formals name v)
  /-- A name of the frame stands for what it is bound to there. -/
  seen : ∀ name v, vars.get? name = some v → (Comp.lookup inner name).Stays v s'

theorem Store.Extends.openScope (s : Store) (env : Env) (formals : List Formal)
    (whole : Option String) (a : Addr .set) : s.Extends (s.openScope env formals whole a).2 where
  thunk ht := get?_bindFormals _ _ formals (.empty, s.thunks) ht
  set ha := Heap.get?_push_of_some ha
  builder := id
  lists := rfl
  lambdas := rfl
  threads := rfl
  counters := rfl
  registers := rfl

theorem Comp.lookup_stays {env : Env} {a : Addr .set} {vars : Attrs Value}
    (ha : s.sets.get? a = some vars) (hv : vars.get? name = some v) :
    (Comp.lookup (env.withShadow (.set a)) name).Stays v s := by
  rw [Comp.lookup_withShadow]
  refine Stays.bind ((Stays.attrs ha).bind (.pure _ s)) ?_
  simp only [hv]
  exact .pure v s

/-- Opening a scope adds the thunks of the defaults and one set, where the name of the whole
argument comes before the formals. -/
theorem Store.openScope_eq {a : Addr .set} (ha : s.sets.get? a = some args) (env : Env)
    (formals : List Formal) (whole : Option String) {acc : Attrs Value × Heap .thunk Thunk}
    (hacc : acc = bindFormals (env.withShadow (.set s.sets.next)) args formals
      (.empty, s.thunks)) :
    ∃ vars, (s.openScope env formals whole a).2 =
        { s with thunks := acc.2, sets := s.sets.push vars } ∧
      ∀ name, vars.get? name = if whole = some name then some (.set a) else acc.1.get? name := by
  have hattrs : s.attrs a = args := by
    rw [Store.attrs, ha]
    rfl
  cases whole with
  | none =>
    refine ⟨acc.1, ?_, by simp⟩
    rw [hacc]
    simp only [openScope, hattrs]
  | some x =>
    refine ⟨acc.1.insert x (.set a), ?_, fun name => ?_⟩
    · rw [hacc]
      simp only [openScope, hattrs]
    · simp [Attrs.get?_insert, eq_comm]

/-- The body is entered with every argument that fits. -/
theorem Store.openScope_entered {a : Addr .set} (ha : s.sets.get? a = some args)
    (hfit : ∀ f ∈ formals, ¬ Lacking args f) (f : Addr .lambda) (env : Env)
    (whole : Option String) : ∃ vars, s.Entered
      ((s.openScope env formals whole a).2.record (.call f)) f
      (env.withShadow (.set s.sets.next)) formals whole a args vars := by
  obtain ⟨acc, hacc⟩ : ∃ acc, acc = bindFormals (env.withShadow (.set s.sets.next)) args formals
    (.empty, s.thunks) := ⟨_, rfl⟩
  obtain ⟨vars, hopen, hvars⟩ := openScope_eq ha env formals whole hacc
  have hbound : ∀ name, Bound (env.withShadow (.set s.sets.next)) args formals name
      (.empty, s.thunks) acc := fun name => hacc ▸ bindFormals_bound hfit name _
  refine ⟨vars, (Extends.openScope s env formals whole a).record _, fun t c ht => ?_, ?_, ?_,
    fun name => ?_, fun name v hv => ?_, fun name v hv => ?_⟩
  · rcases get?_of_perform (a := .openScope env formals whole a) ht with h | ⟨env', body, h, -⟩
    · exact .inl h
    · exact .inr ⟨env', body, h⟩
  · rfl
  · rw [hopen]
    rfl
  · rw [hvars]
    -- the name of the whole argument shadows a formal of the same name
    by_cases hwhole : whole = some name
    · simp [hwhole]
    · rw [if_neg hwhole, (hbound name).names, or_iff_right hwhole]
  · rw [hvars] at hv
    by_cases hwhole : whole = some name
    · rw [if_pos hwhole] at hv
      exact .inl ⟨hwhole, (Option.some.inj hv).symm⟩
    · rw [if_neg hwhole] at hv
      rw [hopen]
      exact .inr ⟨hwhole, (hbound name).value hv⟩
  · refine Comp.lookup_stays ?_ hv
    rw [hopen]
    exact Heap.get?_push_next s.sets vars

/-! ### Calls -/

section Calls

variable {w arg : Value} {f : Addr .lambda} {fn : Lambda} {whole : Option String}
  {openEnded : Bool} {a : Addr .set} {s₀ s₁ : Store}

theorem Store.Later.strict (h : s.Later s') (env : Env) : s'.strict env = s.strict env := by
  rw [Store.strict, Store.strict, thread?, thread?, h.threads]

/-- A call comes to the check once the function and the argument have been forced. -/
theorem Comp.apply_passes (hw : (force w).Ends s (.ok (.lambda f)) s₀)
    (hf : s₀.lambdas.get? f = some fn) (hparam : fn.param = .pattern formals whole openEnded)
    (harg : (force arg).Ends s₀ (.ok (.set a)) s₁) (ha : s₁.sets.get? a = some args) :
    (Machine.load (apply w arg) s).Passes (Machine.load (do
      ofExcept (checkArgs (s.strict fn.env) fn.param formals openEnded args)
      enterBody f (← perform (.openScope fn.env formals whole a)) fn.body) s₁) := by
  have hlambda : (perform (.lambda f)).Ends s₀ (.ok (some fn)) s₀ :=
    ends_perform.mpr ⟨congrArg Except.ok hf.symm, rfl⟩
  have hlater := (Store.later_law.ends hw).trans (Store.later_law.ends harg)
  have hstrict : (perform (.strict fn.env)).Ends s₁ (.ok (s.strict fn.env)) s₁ :=
    ends_perform.mpr ⟨congrArg Except.ok (hlater.strict fn.env).symm, rfl⟩
  obtain ⟨env, _, body⟩ := fn
  cases hparam
  exact (Machine.passes_next hw _).trans ((Machine.passes_next hlambda _).trans
    ((Machine.passes_next harg _).trans ((Machine.passes_next hstrict _).trans
      (Machine.passes_next (Stays.attrs ha).ends _))))

/-- **Calls of pattern functions.** Let a value force to a function that takes a pattern, and an
argument to a set. If the thread of the function is strict, the pattern is not open and the set has
attributes that it does not name, the call fails and names the least of them. Otherwise, if the set
does not have some formal without a default, the call fails and names the first such formal. In both
cases nothing has been run but what forced the function and the argument. Otherwise the body is run,
and whatever it comes to is what the call comes to. It is run in the scope of the definition with
one new frame, which binds the formals and the name of the whole argument and nothing else; nothing
has been forced before that. -/
theorem pattern_call (hw : (Comp.force w).Ends s (.ok (.lambda f)) s₀)
    (hf : s₀.lambdas.get? f = some fn) (hparam : fn.param = .pattern formals whole openEnded)
    (harg : (Comp.force arg).Ends s₀ (.ok (.set a)) s₁) (ha : s₁.sets.get? a = some args) :
    (Refuses (s.strict fn.env) openEnded formals args →
      ∃ k, Undeclared formals args k ∧
        (∀ j, Undeclared formals args j → k = j ∨ Text.Before k j) ∧
        (Comp.apply w arg).Ends s (.error (.eval (.unexpectedArg k))) s₁) ∧
    (¬ Refuses (s.strict fn.env) openEnded formals args → (∃ g ∈ formals, Lacking args g) →
      ∃ before g after, formals = before ++ g :: after ∧ Lacking args g ∧
        (∀ g' ∈ before, ¬ Lacking args g') ∧
        (Comp.apply w arg).Ends s (.error (.eval (.missingArg fn.param.describe g.name))) s₁) ∧
    (¬ Refuses (s.strict fn.env) openEnded formals args → (∀ g ∈ formals, ¬ Lacking args g) →
      ∃ s₂ inner vars, inner = fn.env.withShadow (.set s₁.sets.next) ∧
        s₁.Entered s₂ f inner formals whole a args vars ∧
        (Machine.load (Comp.apply w arg) s).Passes (Machine.load (Comp.eval inner fn.body) s₂) ∧
        ∀ r s', (Comp.apply w arg).Ends s r s' ↔ (Comp.eval inner fn.body).Ends s₂ r s') := by
  have hpasses := Comp.apply_passes hw hf hparam harg ha
  have hcases := Comp.checkArgs_cases (s.strict fn.env) fn.param formals openEnded args
  -- what the check refuses, the call refuses, in the store in which the argument is forced
  have hfails : ∀ c, Comp.checkArgs (s.strict fn.env) fn.param formals openEnded args = .error c →
      (Comp.apply w arg).Ends s (.error (.eval c)) s₁ := by
    intro c hc
    rw [hpasses.ends_iff, hc]
    exact Comp.Ends.bind_error (Comp.ends_refuse.mpr ⟨rfl, rfl⟩)
  refine ⟨fun hrefuses => ?_, fun hfits hlack => ?_, fun hfits hall => ?_⟩
  · rcases hcases with ⟨-, k, hk, hc⟩ | ⟨hfits, -⟩ | ⟨hfits, -⟩
    · obtain ⟨hundeclared, hleast⟩ := Comp.unexpected?_eq_some hk
      exact ⟨k, hundeclared, hleast, hfails _ hc⟩
    · exact absurd hrefuses hfits
    · exact absurd hrefuses hfits
  · rcases hcases with ⟨hrefuses, -⟩ | ⟨-, name, hname, hc⟩ | ⟨-, hnone, -⟩
    · exact absurd hrefuses hfits
    · obtain ⟨before, g, after, horder, rfl, hg, hfirst⟩ := Comp.missing?_eq_some hname
      exact ⟨before, g, after, horder, hg, hfirst, hfails _ hc⟩
    · obtain ⟨g, hg, hlack⟩ := hlack
      exact absurd hlack (Comp.missing?_eq_none.mp hnone g hg)
  · rcases hcases with ⟨hrefuses, -⟩ | ⟨-, name, hname, -⟩ | ⟨-, -, hc⟩
    · exact absurd hrefuses hfits
    · rw [Comp.missing?_eq_none.mpr hall] at hname
      cases hname
    · -- after the check two steps are left before the body: the scope and the record
      obtain ⟨vars, hentered⟩ := Store.openScope_entered ha hall f fn.env whole
      rw [hc] at hpasses
      have hbody := hpasses.trans ((Machine.passes_next (Comp.ends_pure.mpr ⟨rfl, rfl⟩) _).trans
        ((Machine.passes_next (Comp.perform_ends (.openScope fn.env formals whole a) s₁) _).trans
          (Machine.passes_next (Comp.perform_ends (.record (.call f)) _) _)))
      exact ⟨_, _, vars, rfl, hentered, hbody, fun r s' => hbody.ends_iff⟩

end Calls

/-- A strict thread with the function `{ a ? b, b, a ? w, w ? raise "unused" } @ w: a`, a thunk that
fails, and the sets `{ b = 1; y = 2; z = 3; }` and `{ b = raise "lazy"; }`. -/
def Store.strictPattern : Store :=
  { Store.initial with
    threads := ⟨#[⟨⟨"main", "/", true, 0⟩, none, 0⟩]⟩
    thunks := ⟨#[.unforced .empty (.raise "lazy")]⟩
    lambdas := ⟨#[typeOfLambda, ⟨⟨some ⟨0⟩, [], []⟩, .pattern [⟨"a", some (.var "b")⟩, ⟨"b", none⟩,
      ⟨"a", some (.var "w")⟩, ⟨"w", some (.raise "unused")⟩] (some "w") false, .var "a"⟩]⟩
    sets := ⟨#[.empty, builtinBindings, globalBindings,
      .ofList [("z", .int 3), ("y", .int 2), ("b", .int 1)], .ofList [("b", .thunk ⟨0⟩)]]⟩ }

/-- The first set has `y` too many, the empty set has no `b`, and with the last one the body is
entered, where `w` stands for the whole argument. -/
theorem pattern_call_strict :
    (Comp.apply (.lambda ⟨1⟩) (.set ⟨3⟩)).Ends .strictPattern
      (.error (.eval (.unexpectedArg "y"))) .strictPattern ∧
    (∃ text, (Comp.apply (.lambda ⟨1⟩) (.set ⟨0⟩)).Ends .strictPattern
      (.error (.eval (.missingArg text "b"))) .strictPattern) ∧
    ∃ s' inner, s'.journal = [.call ⟨1⟩] ∧ (Comp.lookup inner "w").Stays (.set ⟨4⟩) s' ∧
      (Machine.load (Comp.apply (.lambda ⟨1⟩) (.set ⟨4⟩)) .strictPattern).Passes
        (Machine.load (Comp.eval inner (.var "a")) s') := by
  have hfn : (Comp.force (.lambda ⟨1⟩)).Ends .strictPattern (.ok (.lambda ⟨1⟩)) .strictPattern :=
    Comp.ends_pure.mpr ⟨rfl, rfl⟩
  have harg : ∀ a : Addr .set, (Comp.force (.set a)).Ends .strictPattern (.ok (.set a))
      .strictPattern := fun a => Comp.ends_pure.mpr ⟨rfl, rfl⟩
  refine ⟨?_, ?_, ?_⟩
  · obtain ⟨k, -, -, hk⟩ := (pattern_call hfn rfl rfl (harg ⟨3⟩) rfl).1
      ⟨rfl, rfl, "y", by decide, by simp⟩
    have hy : (Comp.apply (.lambda ⟨1⟩) (.set ⟨3⟩)).Ends .strictPattern
      (.error (.eval (.unexpectedArg "y"))) .strictPattern := ⟨5, rfl⟩
    exact (hk.unique hy).1 ▸ hk
  · obtain ⟨before, g, after, -, -, -, hg⟩ := (pattern_call hfn rfl rfl (harg ⟨0⟩) rfl).2.1
      (fun ⟨_, _, k, hk, _⟩ => nomatch hk) ⟨⟨"b", none⟩, by simp, rfl, rfl⟩
    have hb : (Comp.apply (.lambda ⟨1⟩) (.set ⟨0⟩)).Ends .strictPattern
      (.error (.eval (.missingArg _ "b"))) .strictPattern := ⟨5, rfl⟩
    exact ⟨_, (hg.unique hb).1 ▸ hg⟩
  · obtain ⟨-, -, hcall⟩ := pattern_call hfn rfl rfl (harg ⟨4⟩) rfl
    have hentered := hcall ?fits ?all
    case fits =>
      rintro ⟨-, -, k, hk, hfree⟩
      obtain rfl : k = "b" := List.mem_singleton.mp hk
      exact hfree ⟨"b", none⟩ (by simp) rfl
    case all =>
      intro g hg hlack
      simp only [List.mem_cons, List.not_mem_nil, or_false] at hg
      rcases hg with rfl | rfl | rfl | rfl
      · cases hlack.1
      · cases hlack.2
      · cases hlack.1
      · cases hlack.1
    obtain ⟨s', inner, vars, -, hentered, hpasses, -⟩ := hentered
    obtain ⟨v, hv⟩ := (hentered.names "w").mpr (.inl rfl)
    rcases hentered.values "w" v hv with ⟨-, rfl⟩ | ⟨hne, -⟩
    · exact ⟨s', inner, hentered.journal, hentered.seen "w" _ hv, hpasses⟩
    · exact absurd rfl hne

end NixKernel
