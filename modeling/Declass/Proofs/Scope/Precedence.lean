import Declass.Scope.Callable

/-!
# Which binding of a name stays

A name keeps the first binding that is not of a field, and without one the first of a field (`Scope.find?_bindCalls`). Main
statement: `Scope.ofCallable_precedence`.
-/

namespace Declass

open List

namespace Scope

variable {s : Scope} {x name : Text} {kind : BindingKind} {type : Text} {b : Binding} {v : Var} {scanned : List Var}

/-! ## Sequences of bindings -/

theorem lookup_cons_of_ne {es : List (Text × Binding)} (h : x ≠ name) : List.lookup x ((name, b) :: es) = List.lookup x es := by
  rw [lookup_cons, beq_eq_false_iff_ne.2 h]

theorem find?_bind : (s.bind name kind type).find? x =
      if x = name then some ((s.find? name).elim ⟨kind, type⟩ fun old => if hides ⟨kind, type⟩ old then ⟨kind, type⟩ else old)
      else s.find? x := by
  obtain ⟨bindings⟩ := s
  unfold bind find?
  dsimp only
  induction bindings with
  | nil =>
    rw [Table.upsert]
    by_cases hx : x = name
    · rw [hx, lookup_cons_self, if_pos rfl]
      rfl
    · rw [lookup_cons_of_ne hx, if_neg hx]
  | cons e es ih =>
    obtain ⟨key, old⟩ := e
    rw [Table.upsert]
    by_cases hkey : key = name
    · subst hkey
      have hnew : (if hides ⟨kind, type⟩ old then (key, ⟨kind, type⟩) else (key, old)) =
          (key, if hides ⟨kind, type⟩ old then ⟨kind, type⟩ else old) := by split <;> rfl
      rw [if_pos (decide_eq_true rfl), hnew, lookup_cons_self, Option.elim_some]
      by_cases hx : x = key
      · rw [hx, lookup_cons_self, if_pos rfl]
      · rw [lookup_cons_of_ne hx, lookup_cons_of_ne hx, if_neg hx]
    · rw [if_neg (by simpa using hkey), lookup_cons_of_ne (Ne.symm hkey)]
      by_cases hx : x = key
      · rw [hx, lookup_cons_self, lookup_cons_self, if_neg hkey]
      · rw [lookup_cons_of_ne hx, lookup_cons_of_ne hx, ih]

/-- Names are bound one after the other. -/
def bindCalls (s : Scope) (calls : List (Text × Binding)) : Scope :=
  calls.foldl (fun s e => s.bind e.1 e.2.kind e.2.type) s

/-- What a sequence of bindings says about one name. -/
def bindingsOf (x : Text) (calls : List (Text × Binding)) : List Binding :=
  (calls.filter (·.1 = x)).map Prod.snd

/-- The first parameter or local, or else the first field. -/
def winner (bs : List Binding) : Option Binding :=
  (bs.find? (·.kind ≠ .field)).or (bs.find? (·.kind = .field))

theorem winner_toList (o : Option Binding) : winner o.toList = o := by
  cases o with
  | none => rfl
  | some b => by_cases h : b.kind = .field <;> simp [winner, h]

/-- Of two bindings in a row, the one that stays stands for both. -/
theorem winner_cons_cons (new old : Binding) (bs : List Binding) :
    winner (old :: new :: bs) = winner ((if hides new old then new else old) :: bs) := by
  by_cases ho : old.kind = .field <;> by_cases hn : new.kind = .field <;> simp [winner, hides, ho, hn]

theorem find?_bindCalls (calls : List (Text × Binding)) :
    (s.bindCalls calls).find? x = winner ((s.find? x).toList ++ bindingsOf x calls) := by
  induction calls generalizing s with
  | nil => rw [bindingsOf, filter_nil, map_nil, append_nil, winner_toList]; rfl
  | cons e calls ih =>
    obtain ⟨name, new⟩ := e
    rw [bindCalls, foldl_cons, ← bindCalls, ih, find?_bind, bindingsOf, bindingsOf]
    by_cases hx : x = name
    · subst hx
      rw [if_pos rfl, filter_cons, if_pos (decide_eq_true rfl)]
      cases s.find? x with
      | none => rfl
      | some old => exact (winner_cons_cons new old _).symm
    · rw [if_neg hx, filter_cons_of_neg (by simpa using Ne.symm hx)]

theorem bindAll_eq_bindCalls (vars : List Var) :
    s.bindAll kind vars = s.bindCalls (vars.map fun v => (v.name, ⟨kind, v.type⟩)) := by
  rw [bindAll, bindCalls, foldl_map]

theorem bindingsOf_map (vars : List Var) : bindingsOf x (vars.map fun v => (v.name, ⟨kind, v.type⟩)) =
      (vars.filter (·.name = x)).map fun v => (⟨kind, v.type⟩ : Binding) := by
  rw [bindingsOf, filter_map, map_map]
  rfl

/-! ## The scope of a callable -/

/-- The locals that the body of a callable declares. -/
def foundLocals (p : Program) (f : Callable) : List Var :=
  f.body.elim [] fun b => scanLocals p.typeEnv b.text

/-- The first parameter of a name, or else the first field. -/
def declared? (fields params : List Var) (x : Text) : Option Binding :=
  ((params.find? (·.name = x)).map fun v => ⟨.param, v.type⟩).or ((fields.find? (·.name = x)).map fun v => ⟨.field, v.type⟩)

/-- Among fields the first one stays. -/
theorem winner_fields (vs : List Var) :
    winner (vs.map fun v => ⟨.field, v.type⟩) = vs.head?.map fun v => ⟨.field, v.type⟩ := by
  have hno : (vs.map fun v => (⟨.field, v.type⟩ : Binding)).find? (·.kind ≠ .field) = none := by
    simp only [find?_eq_none, mem_map]
    rintro _ ⟨v, -, rfl⟩
    exact Bool.false_ne_true
  rw [winner, hno, Option.none_or]
  cases vs <;> rfl

theorem find?_bindAll_bindAll (fields params : List Var) :
    ((({} : Scope).bindAll .field fields).bindAll .param params).find? x = declared? fields params x := by
  have hempty : ({} : Scope).find? x = none := rfl
  rw [bindAll_eq_bindCalls, find?_bindCalls, bindAll_eq_bindCalls, find?_bindCalls, hempty, bindingsOf_map, bindingsOf_map,
    declared?, ← head?_filter, ← head?_filter, Option.toList_none, nil_append, winner_fields]
  cases params.filter (·.name = x) with
  | nil => rw [map_nil, append_nil, winner_toList]; rfl
  | cons v vs => cases fields.filter (·.name = x) <;> rfl

/-- A reported local takes a field's name, unless the body declares it. -/
theorem find?_bindReported (hs : s.find? x = some b) : (bindReported scanned s v).find? x =
      some (if v.name = x ∧ b.kind = .field ∧ ∀ w ∈ scanned, w.name ≠ x then ⟨.localVar, v.type⟩ else b) := by
  unfold bindReported
  split
  next h =>
    obtain ⟨hany, hfield⟩ := Bool.and_eq_true_iff.1 h
    obtain ⟨w, hw, hname⟩ := any_eq_true.1 hany
    rw [if_neg, hs]
    rintro ⟨rfl, -, hno⟩
    exact hno w hw (of_decide_eq_true hname)
  next h =>
    rw [find?_bind]
    by_cases hv : x = v.name
    · subst hv
      rw [if_pos rfl, hs]
      have hno : b.kind = .field → ∀ w ∈ scanned, w.name ≠ v.name := by
        intro hb w hw hname
        refine h (Bool.and_eq_true_iff.2 ⟨any_eq_true.2 ⟨w, hw, decide_eq_true hname⟩, ?_⟩)
        rw [isField, hs, Option.any_some, hb, decide_eq_true rfl]
      refine congrArg some (ite_congr (propext ?_) (fun _ => rfl) fun _ => rfl)
      rw [hides, Bool.and_eq_true, beq_iff_eq]
      exact ⟨fun h => ⟨rfl, h.1, hno h.1⟩, fun h => ⟨h.2.1, rfl⟩⟩
    · rw [if_neg hv, hs, if_neg fun h => hv h.1.symm]

theorem find?_foldl_bindReported (locals : List Var) (hs : s.find? x = some b) : (locals.foldl (bindReported scanned) s).find? x =
      some (if b.kind = .field ∧ ∀ w ∈ scanned, w.name ≠ x then
        (locals.find? (·.name = x)).elim b fun v => ⟨.localVar, v.type⟩ else b) := by
  induction locals generalizing s b with
  | nil => rw [foldl_nil, hs, find?_nil, Option.elim_none, ite_self]
  | cons v locals ih =>
    rw [foldl_cons, ih (find?_bindReported hs), find?_cons]
    by_cases hv : v.name = x
    · by_cases hb : b.kind = .field ∧ ∀ w ∈ scanned, w.name ≠ x
      · have hnew : ¬((⟨.localVar, v.type⟩ : Binding).kind = .field ∧ ∀ w ∈ scanned, w.name ≠ x) := fun h => nomatch h.1
        rw [if_pos (And.intro hv hb), if_pos hb, decide_eq_true hv]
        rfl
      · rw [if_neg (not_and.2 fun _ => hb), if_neg hb, if_neg hb]
    · rw [if_neg (not_and.2 fun h => absurd h hv), decide_eq_false hv]

/-- A local that the body declares takes no name that is bound. -/
theorem find?_bindScanned (hs : s.find? x = some b) : (bindScanned s v).find? x = some b := by
  unfold bindScanned
  split
  · exact hs
  next hfield =>
    rw [find?_bind]
    split
    next hx =>
      subst hx
      rw [isField, hs, Option.any_some, decide_eq_true_iff] at hfield
      rw [hs, Option.elim_some, if_neg (by simp [hides, hfield])]
    next => exact hs

theorem find?_ofCallable {p : Program} {c : Option Class} {f : Callable}
    (hx : declared? (c.elim [] Class.fields) (paramVars f) x = some b) : (ofCallable p c f).find? x =
      some (if b.kind = .field ∧ ∀ w ∈ foundLocals p f, w.name ≠ x then
        (f.locals.find? (·.name = x)).elim b fun v => ⟨.localVar, v.type⟩ else b) := by
  rw [← find?_bindAll_bindAll] at hx
  exact List.foldlRecOn (motive := fun s : Scope => s.find? x = some _) _ _ (find?_foldl_bindReported f.locals hx)
    fun s hs v _ => find?_bindScanned hs

theorem find?_ofCallable_param {p : Program} {c : Option Class} {f : Callable}
    (hv : (paramVars f).find? (·.name = x) = some v) : (ofCallable p c f).find? x = some ⟨.param, v.type⟩ := by
  rw [find?_ofCallable (by rw [declared?, hv]; rfl), if_neg fun h => nomatch h.1]

/-- A field keeps its name but for a parameter or a reported local. -/
theorem find?_ofCallable_field {p : Program} {c : Class} {f : Callable} (hv : c.fields.find? (·.name = x) = some v) :
    ((ofCallable p (some c) f).isField x ↔
      (∀ q ∈ paramVars f, q.name ≠ x) ∧ ∀ l ∈ f.locals, l.name = x → ∃ w ∈ foundLocals p f, w.name = x) ∧
      ((ofCallable p (some c) f).isField x → (ofCallable p (some c) f).find? x = some ⟨.field, v.type⟩) := by
  rw [isField]
  cases hq : (paramVars f).find? (·.name = x) with
  | some q =>
    have hmem : q.name = x := by simpa using find?_some hq
    rw [find?_ofCallable_param hq]
    exact ⟨⟨nofun, fun h => absurd hmem (h.1 q (mem_of_find?_eq_some hq))⟩, nofun⟩
  | none =>
    have hparam : ∀ q ∈ paramVars f, q.name ≠ x := by simpa using hq
    rw [find?_ofCallable (by rw [declared?, hq, Option.elim_some, hv]; rfl)]
    by_cases hfound : ∀ w ∈ foundLocals p f, w.name ≠ x
    · rw [if_pos ⟨rfl, hfound⟩]
      cases hl : f.locals.find? (·.name = x) with
      | some l =>
        have hmem : l.name = x := by simpa using find?_some hl
        refine ⟨⟨nofun, fun h => ?_⟩, nofun⟩
        obtain ⟨w, hw, hx⟩ := h.2 l (mem_of_find?_eq_some hl) hmem
        exact absurd hx (hfound w hw)
      | none =>
        have hlocal : ∀ l ∈ f.locals, l.name ≠ x := by simpa using hl
        exact ⟨⟨fun _ => ⟨hparam, fun l hl hx => absurd hx (hlocal l hl)⟩, fun _ => rfl⟩, fun _ => rfl⟩
    · rw [if_neg fun h => hfound h.2]
      refine ⟨⟨fun _ => ⟨hparam, fun _ _ _ => ?_⟩, fun _ => rfl⟩, fun _ => rfl⟩
      simpa using hfound

/-- The first parameter of a name gives it its type. -/
theorem find?_paramVars {f : Callable} {i : Nat} {q : Param} (hq : f.params[i]? = some q)
    (hfirst : ∀ j < i, f.paramName j ≠ f.paramName i) :
    (paramVars f).find? (·.name = f.paramName i) = some { name := f.paramName i, type := q.type } := by
  obtain ⟨hi, rfl⟩ := List.getElem?_eq_some_iff.1 hq
  rw [find?_eq_some_iff_getElem]
  refine ⟨decide_eq_true rfl, i, by rwa [paramVars, length_mapIdx], ?_, fun j hj => ?_⟩
  · simp only [paramVars, getElem_mapIdx]
  · simpa [paramVars] using hfirst j hj

theorem forall_paramVars_ne {f : Callable} : (∀ q ∈ paramVars f, q.name ≠ x) ↔ ∀ i < f.params.length, f.paramName i ≠ x := by
  constructor
  · intro h i hi
    exact h _ (mem_mapIdx.2 ⟨i, hi, rfl⟩)
  · intro h q hq
    obtain ⟨i, hi, rfl⟩ := mem_mapIdx.1 hq
    exact h i hi

/-- A name bound again keeps its first parameter or local, else its first field. So in a callable's scope a parameter's name
has the type of the first such parameter, and a field keeps its name unless a parameter has it or a reported local that the
body does not declare. -/
theorem ofCallable_precedence (p : Program) (f : Callable) :
    (∀ calls x, (({} : Scope).bindCalls calls).find? x = winner (bindingsOf x calls)) ∧
      (∀ c i q, f.params[i]? = some q → (∀ j < i, f.paramName j ≠ f.paramName i) →
        (ofCallable p c f).find? (f.paramName i) = some ⟨.param, q.type⟩) ∧
      ∀ (c : Class) (x : Text) (v : Var), c.fields.find? (·.name = x) = some v →
        ((ofCallable p (some c) f).isField x ↔ (∀ i < f.params.length, f.paramName i ≠ x) ∧
          ∀ l ∈ f.locals, l.name = x → ∃ w ∈ foundLocals p f, w.name = x) ∧
        ((ofCallable p (some c) f).isField x → (ofCallable p (some c) f).find? x = some ⟨.field, v.type⟩) := by
  refine ⟨fun calls x => find?_bindCalls calls, fun c i q hq hfirst => ?_, fun c x v hv => ?_⟩
  · exact find?_ofCallable_param (find?_paramVars hq hfirst)
  · rw [← forall_paramVars_ne]
    exact find?_ofCallable_field hv

/-- A method `(int a, char, long a)` with locals `t` and `u`. -/
def sampleMethod : Callable where
  name := "m"
  rawType := "void (int, char, long)"
  params := [{ name := some "a".toList, type := "int" }, { name := none, type := "char" }, { name := some "a".toList, type := "long" }]
  locals := [⟨"t", "int"⟩, ⟨"u", "int"⟩]
  body := some { text := "{ int t = a; }", file := "m.cpp" }

/-- A class with a field for each of the names in `sampleMethod`. -/
def sampleClass : Class where
  name := "C"
  keyword := .classWord
  fields := [⟨"a", "bool"⟩, ⟨"p1", "bool"⟩, ⟨"t", "bool"⟩, ⟨"u", "bool"⟩]

/-- The two `a` give one name, the nameless parameter is `p1`, and of the fields only `t` keeps its name. -/
theorem ofCallable_precedence_sample :
    ((ofCallable {} (some sampleClass) sampleMethod).find? "a" = some ⟨.param, "int"⟩ ∧
      (ofCallable {} (some sampleClass) sampleMethod).find? "p1" = some ⟨.param, "char"⟩) ∧
      (ofCallable {} (some sampleClass) sampleMethod).isField "t" ∧ ¬(ofCallable {} (some sampleClass) sampleMethod).isField "u" := by
  obtain ⟨-, hparam, hfield⟩ := ofCallable_precedence {} sampleMethod
  refine ⟨⟨hparam _ 0 _ rfl (by decide), hparam _ 1 _ rfl (by decide)⟩, ?_, ?_⟩
  · exact (hfield sampleClass "t" ⟨"t", "bool"⟩ (by decide)).1.2 ⟨by decide, by decide +kernel⟩
  · intro h
    exact absurd ((hfield sampleClass "u" ⟨"u", "bool"⟩ (by decide)).1.1 h).2 (by decide +kernel)

end Scope

end Declass
