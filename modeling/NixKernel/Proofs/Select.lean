import NixKernel.Proofs.Journal
import NixKernel.Proofs.Spelling

/-!
Asking for a path and taking what is there. Whether a path exists and what is at its end are found
out by the same walk, which forces the values and the components on its way. So `?` and `.` run the
same in the same order, and `?` tells beforehand how `.` ends; what `.` does more, in order to name
the path in its error, has no effect.
-/

namespace NixKernel

variable {s s' : Store} {v u w : Value} {path before rest walked : List Value}

/-! ### Paths in a store -/

namespace Store

/-- A path leads from one value to another: each component is a string, and under that name there
is the next value in a set. -/
inductive PathTo (s : Store) : Value → List Value → Value → Prop
  | here (v : Value) : PathTo s v [] v
  | attr {v c w x : Value} {path : List Value} {a : Addr .set} {m : Attrs Value} {name : String}
      (set : s.Forced v (.set a)) (cell : s.sets.get? a = some m)
      (component : s.Forced c (.str name)) (bound : m.get? name = some w)
      (rest : PathTo s w path x) : PathTo s v (c :: path) x

/-- A path comes to a value that is no set, but of this type, before it has come to its end. -/
def Blocked (s : Store) (v : Value) (path : List Value) (t : TypeName) : Prop :=
  ∃ before c rest u x, path = before ++ c :: rest ∧ s.PathTo v before u ∧ s.Forced u x ∧
    x.typeName = t ∧ t ≠ .set

/-- A path comes to a set that does not have the next component, or this is null; `walked` is the
path up to there. -/
def Lacks (s : Store) (v : Value) (path walked : List Value) : Prop :=
  ∃ before c rest u a o, path = before ++ c :: rest ∧ walked = before ++ [c] ∧
    s.PathTo v before u ∧ s.Forced u (.set a) ∧ (Comp.forceName c).Stays o s ∧
    ∀ name, o = some name → ∃ m, s.sets.get? a = some m ∧ m.get? name = none

variable {c : Value} {a : Addr .set} {m : Attrs Value} {name : String} {t : TypeName}

theorem Blocked.attr (set : s.Forced v (.set a)) (cell : s.sets.get? a = some m)
    (component : s.Forced c (.str name)) (bound : m.get? name = some w)
    (h : s.Blocked w path t) : s.Blocked v (c :: path) t := by
  obtain ⟨before, c', rest, u, x, rfl, hto, hx⟩ := h
  exact ⟨c :: before, c', rest, u, x, rfl, .attr set cell component bound hto, hx⟩

theorem Lacks.attr (set : s.Forced v (.set a)) (cell : s.sets.get? a = some m)
    (component : s.Forced c (.str name)) (bound : m.get? name = some w)
    (h : s.Lacks w path walked) : s.Lacks v (c :: path) (c :: walked) := by
  obtain ⟨before, c', rest, u, a', o, rfl, rfl, hto, hx⟩ := h
  exact ⟨c :: before, c', rest, u, a', o, rfl, rfl, .attr set cell component bound hto, hx⟩

end Store

/-! ### Where a walk arrives -/

namespace Comp

variable {c : Value} {name : String} {x : Walk}

theorem forceName_forced (h : (forceName c).Ends s (.ok (some name)) s') :
    s'.Forced c (.str name) := by
  obtain ⟨w, s₁, hw, h⟩ := ends_bind_ok.mp h
  cases w with
  | str n =>
    obtain ⟨he, rfl⟩ := ends_pure.mp h
    cases he
    exact force_forced hw
  | null => cases (ends_pure.mp h).1
  | _ => cases (ends_refuse.mp h).1

theorem Stays.forceName (h : s.Forced c (.str name)) : (Comp.forceName c).Stays (some name) s :=
  (Stays.force h).bind (.pure _ s)

/-- What is said of a path by how the walk along it has ended; `walked` is the way before it. -/
def Walk.Tells (s : Store) (v : Value) (path walked : List Value) : Walk → Prop
  | .found w => s.PathTo v path w
  | .nonSet t => s.Blocked v path t
  | .missing l => ∃ l', l = walked ++ l' ∧ s.Lacks v path l'

/-- **What a walk tells.** How it has ended says whether the path is there in the store that it has
come to. -/
theorem walk_tells (h : (walk walked v path).Ends s (.ok x) s') : x.Tells s' v path walked := by
  induction path generalizing walked v s with
  | nil =>
    obtain ⟨he, rfl⟩ := ends_pure.mp h
    cases he
    exact .here v
  | cons c path ih =>
    obtain ⟨u, s₁, hu, h⟩ := ends_bind_ok.mp h
    -- what the walk has forced on its way is still forced in the end
    have hforced := (force_forced hu).mono (Store.later_law.ends h)
    cases u with
    | set a =>
      obtain ⟨o, s₂, ho, h⟩ := ends_bind_ok.mp h
      have hname := forceName_stays ho
      cases o with
      | none =>
        obtain ⟨he, rfl⟩ := ends_pure.mp h
        cases he
        exact ⟨[c], rfl, [], c, path, v, a, none, rfl, rfl, .here v, hforced, hname, nofun⟩
      | some name =>
        obtain ⟨m, s₃, ⟨n, hm⟩, hrest⟩ := ends_bind_ok.mp h
        obtain ⟨hcell, rfl⟩ := runWith_attrs_ok.mp hm
        split at hrest
        · rename_i hbound
          obtain ⟨he, rfl⟩ := ends_pure.mp hrest
          cases he
          refine ⟨[c], rfl, [], c, path, v, a, some name, rfl, rfl, .here v, hforced, hname, ?_⟩
          rintro _ ⟨⟩
          exact ⟨m, hcell, hbound⟩
        · rename_i w hbound
          have hlater := Store.later_law.ends hrest
          have hset := hlater.set hcell
          have hcomponent := (forceName_forced ho).mono hlater
          have htells := ih hrest
          cases x with
          | found x => exact .attr hforced hset hcomponent hbound htells
          | nonSet t => exact Store.Blocked.attr hforced hset hcomponent hbound htells
          | missing l =>
            obtain ⟨l', rfl, hlacks⟩ := htells
            exact ⟨c :: l', by simp, hlacks.attr hforced hset hcomponent hbound⟩
    | _ =>
      obtain ⟨he, rfl⟩ := ends_pure.mp h
      cases he
      exact ⟨[], c, path, v, _, rfl, .here v, hforced, rfl, nofun⟩

/-- A walk along a path that is there goes on from its end. -/
theorem Stays.walk_append (h : s.PathTo v before u)
    (hrest : (walk (walked ++ before) u rest).Stays x s) :
    (walk walked v (before ++ rest)).Stays x s := by
  induction h generalizing walked with
  | here v => simpa using hrest
  | attr set cell component bound _ ih =>
    refine (Stays.force set).bind ((Stays.forceName component).bind ((Stays.attrs cell).bind ?_))
    simp only [bound]
    exact ih (by simpa using hrest)

/-- What a walk tells fixes how it ends, in every later store too. -/
theorem Walk.Tells.stays (h : x.Tells s v path walked) : (walk walked v path).Stays x s := by
  cases x with
  | found w =>
    have hpath : (walk walked v (path ++ [])).Stays (.found w) s := .walk_append h (.pure _ s)
    rwa [List.append_nil] at hpath
  | nonSet t =>
    obtain ⟨before, c, rest, u, x, rfl, hto, hx, rfl, hne⟩ := h
    refine Stays.walk_append hto ((Stays.force hx).bind ?_)
    cases x with
    | set a => exact absurd rfl hne
    | _ => exact .pure _ s
  | missing l =>
    obtain ⟨_, rfl, before, c, rest, u, a, o, rfl, rfl, hto, hset, hname, hnone⟩ := h
    rw [← List.append_assoc]
    refine Stays.walk_append hto ((Stays.force hset).bind (hname.bind ?_))
    cases o with
    | none => exact .pure _ s
    | some name =>
      obtain ⟨m, hcell, hbound⟩ := hnone name rfl
      refine (Stays.attrs hcell).bind ?_
      simp only [hbound]
      exact .pure _ s

/-- A walk tells one thing only. -/
theorem Walk.Tells.unique {y : Walk} (h : x.Tells s v path walked)
    (h' : y.Tells s v path walked) : x = y :=
  Except.ok.inj (h.stays.ends.unique h'.stays.ends).1

/-! ### Asking and taking -/

/-- The way up to what is missing has names, and to find them has no effect. -/
theorem pathNames_missing {l : List Value} (h : (walk [] v path).Ends s (.ok (.missing l)) s') :
    ∃ names, (attempt (pathNames l)).Ends s' (.ok (.ok names)) s' := by
  obtain ⟨names, -, hnames⟩ := (walk_named h fun c hc => nomatch hc).pathNames
  exact ⟨names, hnames.attempt.ends⟩

/-- `.` goes on from the end of the walk. -/
theorem Ends.select {fallback : Option Value} {r : Except Error Value}
    (h : (walk [] v path).Ends s (.ok x) s₁) (hx : (x.selected fallback).Ends s₁ r s') :
    (Comp.select v path fallback).Ends s r s' := by
  rw [select_eq_walk]
  exact h.bind hx

theorem has_inStep (v : Value) (path : List Value) (s : Store) :
    (has v path).InStep (walk [] v path) s := by
  rw [has_eq_walk v [] path]
  refine .bind fun x s₁ _ => ?_
  cases x with
  | _ => exact ⟨_, ends_pure.mpr ⟨rfl, rfl⟩⟩

theorem select_inStep (v : Value) (path : List Value) (fallback : Option Value) (s : Store) :
    (select v path fallback).InStep (walk [] v path) s := by
  rw [select_eq_walk]
  refine .bind fun x s₁ hx => ?_
  cases x with
  | found w => exact ⟨_, ends_pure.mpr ⟨rfl, rfl⟩⟩
  | nonSet t =>
    cases fallback with
    | none => exact ⟨_, ends_refuse.mpr ⟨rfl, rfl⟩⟩
    | some d => exact ⟨_, ends_pure.mpr ⟨rfl, rfl⟩⟩
  | missing l =>
    cases fallback with
    | none =>
      obtain ⟨names, hnames⟩ := pathNames_missing hx
      exact ⟨_, hnames.bind (ends_refuse.mpr ⟨rfl, rfl⟩)⟩
    | some d => exact ⟨_, ends_pure.mpr ⟨rfl, rfl⟩⟩

end Comp

/-- **Asking for a path and taking what is there agree.** For every store, value, path and fallback,
`?`, `.` with the fallback and `.` without run the same in the same order, whether they come to an
end or not. If `?` fails, both others fail with that error. If it answers that the path is there,
both others give the value that is stored at its end. If it answers that the path is not there, then
it is not, and the fallback is given as it is; without one there is an error, which is a type
mismatch if the path comes to a value that is no set, and a missing attribute otherwise. -/
theorem has_select_agree (s : Store) (v d : Value) (path : List Value) :
    (Comp.has v path).InStep (Comp.select v path (some d)) s ∧
    (Comp.has v path).InStep (Comp.select v path none) s ∧
    (∀ e s', (Comp.has v path).Ends s (.error e) s' →
      (Comp.select v path (some d)).Ends s (.error e) s' ∧
      (Comp.select v path none).Ends s (.error e) s') ∧
    (∀ s', (Comp.has v path).Ends s (.ok true) s' → ∃ w, s'.PathTo v path w ∧
      (Comp.select v path (some d)).Ends s (.ok w) s' ∧
      (Comp.select v path none).Ends s (.ok w) s') ∧
    ∀ s', (Comp.has v path).Ends s (.ok false) s' → (∀ w, ¬ s'.PathTo v path w) ∧
      (Comp.select v path (some d)).Ends s (.ok d) s' ∧
      ∃ e, (Comp.select v path none).Ends s (.error e) s' ∧
        (((∃ t, s'.Blocked v path t) ∧ e.kind? = some .typeMismatch) ∨
          ((∀ t, ¬ s'.Blocked v path t) ∧ e.kind? = some .missingAttr)) := by
  -- all three operations stay in step with one walk and differ in what they make of its end
  have hhas := Comp.has_inStep v path s
  refine ⟨hhas.trans (Comp.select_inStep v path (some d) s).symm,
    hhas.trans (Comp.select_inStep v path none s).symm, fun e s' h => ?_, fun s' h => ?_,
    fun s' h => ?_⟩
  · rw [Comp.has_eq_walk v []] at h
    rw [Comp.select_eq_walk, Comp.select_eq_walk]
    rcases Comp.ends_bind_iff.mp h with ⟨x, s₁, -, hx⟩ | ⟨e', hwalk, he⟩
    · cases x with
      | _ => cases (Comp.ends_pure.mp hx).1
    · cases he
      exact ⟨hwalk.bind_error, hwalk.bind_error⟩
  · rw [Comp.has_eq_walk v []] at h
    obtain ⟨x, s₁, hwalk, hx⟩ := Comp.ends_bind_ok.mp h
    cases x with
    | found w =>
      obtain ⟨-, rfl⟩ := Comp.ends_pure.mp hx
      have hfound : ∀ fallback, (Comp.select v path fallback).Ends s (.ok w) s' :=
        fun fallback => hwalk.select (Comp.ends_pure.mpr ⟨rfl, rfl⟩)
      exact ⟨w, Comp.walk_tells hwalk, hfound (some d), hfound none⟩
    | _ => cases (Comp.ends_pure.mp hx).1
  · rw [Comp.has_eq_walk v []] at h
    obtain ⟨x, s₁, hwalk, hx⟩ := Comp.ends_bind_ok.mp h
    have htells := Comp.walk_tells hwalk
    cases x with
    | found w => cases (Comp.ends_pure.mp hx).1
    | nonSet t =>
      obtain ⟨-, rfl⟩ := Comp.ends_pure.mp hx
      refine ⟨fun w hw => ?_, hwalk.select (Comp.ends_pure.mpr ⟨rfl, rfl⟩), _,
        hwalk.select (Comp.ends_refuse.mpr ⟨rfl, rfl⟩), .inl ⟨⟨t, htells⟩, rfl⟩⟩
      cases htells.unique (y := .found w) hw
    | missing l =>
      obtain ⟨-, rfl⟩ := Comp.ends_pure.mp hx
      obtain ⟨names, hnames⟩ := Comp.pathNames_missing hwalk
      refine ⟨fun w hw => ?_, hwalk.select (Comp.ends_pure.mpr ⟨rfl, rfl⟩), _,
        hwalk.select (hnames.bind (Comp.ends_refuse.mpr ⟨rfl, rfl⟩)), .inr ⟨fun t ht => ?_, rfl⟩⟩
      · cases htells.unique (y := .found w) hw
      · cases htells.unique (y := .nonSet t) ht

/-- A store with one thunk, which is for the name `typeOf`. -/
def Store.deferredName : Store := (Store.initial.newThunk .empty (.lit (.str "typeOf"))).2

/-- With that thunk for a name, `builtins.typeOf` is a function and there is no `true.typeOf`, where
neither the name nor the fallback is forced; and `builtins` has nothing that is called null. -/
theorem has_select_agree_deferred :
    (∃ w s', s'.PathTo (.set .globals) [.str "builtins", .thunk ⟨0⟩] w ∧
      (Comp.select (.set .globals) [.str "builtins", .thunk ⟨0⟩] none).Ends .deferredName (.ok w)
        s') ∧
    (Comp.select (.set .globals) [.str "true", .thunk ⟨0⟩] (some (.thunk ⟨0⟩))).Ends .deferredName
      (.ok (.thunk ⟨0⟩)) .deferredName ∧
    (∃ e, e.kind? = some .typeMismatch ∧
      (Comp.select (.set .globals) [.str "true", .thunk ⟨0⟩] none).Ends .deferredName (.error e)
        .deferredName) ∧
    ∃ e, e.kind? = some .missingAttr ∧
      (Comp.select (.set .globals) [.str "builtins", .null] none).Ends .deferredName (.error e)
        .deferredName := by
  obtain ⟨s', hthere⟩ : ∃ s', (Comp.has (.set .globals) [.str "builtins", .thunk ⟨0⟩]).Ends
      .deferredName (.ok true) s' := ⟨_, 5, rfl⟩
  have hblocked : (Comp.has (.set .globals) [.str "true", .thunk ⟨0⟩]).Ends .deferredName
      (.ok false) .deferredName := ⟨5, rfl⟩
  have hmissing : (Comp.has (.set .globals) [.str "builtins", .null]).Ends .deferredName
      (.ok false) .deferredName := ⟨5, rfl⟩
  obtain ⟨w, hto, -, hw⟩ := (has_select_agree _ _ .null _).2.2.2.1 s' hthere
  obtain ⟨-, hfallback, e, he, hkind⟩ := (has_select_agree _ _ (.thunk ⟨0⟩) _).2.2.2.2 _ hblocked
  obtain ⟨-, -, e', he', -⟩ := (has_select_agree _ _ .null _).2.2.2.2 _ hmissing
  refine ⟨⟨w, s', hto, hw⟩, hfallback, ⟨e, ?_, he⟩, e', ?_, he'⟩
  · have hwalk : (Comp.walk [] (.set .globals) [.str "true", .thunk ⟨0⟩]).Ends .deferredName
        (.ok (.nonSet .bool)) .deferredName := ⟨5, rfl⟩
    exact (hkind.resolve_right fun h => h.1 .bool (Comp.walk_tells hwalk)).2
  · have hcause : (Comp.select (.set .globals) [.str "builtins", .null] none).Ends .deferredName
        (.error (.eval (.missingAttr ["builtins", "null"]))) .deferredName := ⟨5, rfl⟩
    cases (he'.unique hcause).1
    rfl

end NixKernel
