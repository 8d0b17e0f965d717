import Declass.Proofs.Output.Order
import Declass.Proofs.Output.Texts
import Mathlib

/-!
# Brackets of generated files

The brackets of every generated file are nested, when the names of the program are names in C, its array dimensions close what they
open, and the texts that it copies can be lowered (`WritableProgram`).
-/

namespace Declass

open Document List Program Scan Token
open Lowering (lower)
open Spelling (dimensions?)

/-! ## Lines of a block -/

namespace Scan

variable {x : Text}

/-- A line that opens a block. -/
theorem Closes.readsLine_open (h : Closes x) : ReadsLine [] (x ++ " \x7b") [.curly] := by
  intro inSpace
  obtain ⟨m, hr, hm⟩ := h.run true inSpace []
  obtain ⟨m', hr', hm'⟩ := run_allBlank (t := [' ']) hm rfl []
  have hspl : x ++ " \x7b" ++ ['\n'] = x ++ ([' '] ++ ['\x7b', '\n']) := by simp
  rw [hspl, run_append_of_eq hr, run_append_of_eq hr', run_cons, next_open hm' rfl]
  rfl

/-- A line that closes a block. -/
theorem Closes.readsLine_close (h : Closes x) : ReadsLine [.curly] ('\x7d' :: x) [] := by
  intro inSpace
  have hcl : next (.code true inSpace, [.curly]) '\x7d' = some (.code false false, []) := next_close rfl rfl
  obtain ⟨m, hr, hm⟩ := h.run false false []
  rw [cons_append, run_cons, hcl, Option.bind_some, run_append_of_eq hr, run_cons, next_lineFeed (settles_of_isCode hm)]
  rfl

/-- A list separated by commas closes its brackets. -/
theorem closes_join {texts : List Text} (h : ∀ t ∈ texts, Closes t) : Closes (List.intercalate ", " texts) := by
  induction texts with
  | nil => exact closes_nil
  | cons t texts ih =>
    have ht := h t mem_cons_self
    have htxs := ih fun u hu => h u (mem_cons_of_mem t hu)
    cases texts with
    | nil => rwa [intercalate_singleton]
    | cons u texts => exact intercalate_cons_cons ▸ closes_comma ht htxs

end Scan

namespace Program

theorem mem_classes_of_mem_orderedClasses {p : Program} {c : Class} (h : c ∈ p.orderedClasses) : c ∈ p.classes := by
  obtain ⟨added, hord, -, hadded, -⟩ := Visited.Grows.foldl p.classes
    (fun v c hc => grows_visitClass (p.classes.length + 1) v c hc) {}
  rw [orderedClasses, hord] at h
  exact (hadded c h).1

end Program

open Lowering

/-! ## Types -/

/-- The array dimensions of a type close what they open. -/
def Declarable (spelling : Text) : Prop :=
  ∀ d, dimensions? spelling = some d → Closes d

theorem declarable_of_none {spelling : Text} (h : dimensions? spelling = none) : Declarable spelling :=
  fun _ hd => nomatch h.symm.trans hd

variable {hasReceiver : Bool}
variable {p : Program}

/-- The classes and enumerations are known by names. -/
theorem namesTypes_typeEnv (hclasses : ∀ c ∈ p.classes, isName c.name)
    (hens : ∀ e ∈ p.enums, isName e.name) : NamesTypes p.typeEnv := by
  rintro name (hcls | henum)
  · obtain ⟨c, hc, hn⟩ := any_eq_true.1 hcls
    rw [← of_decide_eq_true hn]
    exact hclasses c hc
  · obtain ⟨e, he, hn⟩ := any_eq_true.1 henum
    rw [← of_decide_eq_true hn]
    exact hens e he

namespace Enumeration

/-- The line of a constant closes its brackets. -/
theorem closes_constant {k : EnumConstant} (h : isName k.name) : Closes (constantLines.constant k) := by
  unfold constantLines.constant
  cases k.value with
  | none =>
    rw [Option.map_none, Option.getD_none, append_nil]
    exact closes_name h
  | some n =>
    have hval : Closes (k.name ++ " = " ++ .ofInt n) := (closes_name h).sep (closes_ofInt n) rfl rfl
    rwa [append_assoc] at hval

theorem closes_constantLines {ks : List EnumConstant} (h : ∀ k ∈ ks, isName k.name) : ∀ line ∈ constantLines ks, Closes line := by
  have hcom : Closes "," := ⟨_, rfl, rfl⟩
  fun_induction constantLines ks with
  | case1 => exact fun line hl => nomatch hl
  | case2 k =>
    intro line hl
    rw [mem_singleton.1 hl]
    exact closes_constant (h k mem_cons_self)
  | case3 k ks _ ih =>
    intro line hl
    rcases mem_cons.1 hl with rfl | hl
    · refine (closes_constant (h k mem_cons_self)).append hcom ?_
      intro c hc
      cases hc
      decide
    · exact ih (fun k' hk' => h k' (mem_cons_of_mem k hk')) line hl

/-- The type of an enumeration is balanced. -/
theorem balanced_typedef {e : Enumeration} (hn : isName e.name) (h : ∀ k ∈ e.constants, isName k.name) : e.typedef.Balanced := by
  refine ⟨[.curly], ?_, readsBlock_of_closes (closes_constantLines h), ?_⟩
  · intro inSpace
    cases inSpace <;> rfl
  · have hfoot : Closes (" " ++ e.name) := .append_of_code rfl (closes_name hn)
    have hl := (closes_semicolon hfoot).readsLine_close
    simpa using hl

end Enumeration

/-! ## Plain texts -/

/-- Tokens that need no line feed after them are neat. -/
theorem isNeat_of_endsLine {ts : List Token} (h : ∀ t ∈ ts, t.endsLine = false) : isNeat ts := by
  rw [isNeat, Bool.and_eq_true, Option.all_eq_true, Option.all_eq_true]
  constructor
  · intro t ht
    have hl := h t (mem_of_find?_eq_some ht)
    rw [endsLine, Bool.or_eq_false_iff] at hl
    simpa using hl.1
  · intro t ht
    rw [h t (mem_reverse.1 (mem_of_find?_eq_some ht))]
    rfl

/-- The text is nested, and its tokens can be moved and stay apart. -/
def isPlainText (x : Text) : Bool :=
  tokenizeFrom false 0 x == tokenize x && (tokenize x).all (fun t => t.isMovable && !t.endsLine) &&
    decide ((tokenize x).IsChain fun t u => standsApart t u = true) && decide (Nested (tokenize x))

section

variable {p : Program} {x : Text}

/-- No token of a plain text goes on to its line's end. -/
theorem endsLine_of_isPlainText (h : isPlainText x) : ∀ t ∈ tokenize x, t.endsLine = false := by
  intro t ht
  simp only [isPlainText, Bool.and_eq_true, all_eq_true, Bool.not_eq_true'] at h
  exact (h.1.1.2 t ht).2

/-- A plain text can be copied into any function. -/
theorem writable_of_isPlainText (owner : Option Class) (h : isPlainText x) : Writable p owner x := by
  have hl := endsLine_of_isPlainText h
  simp only [isPlainText, Bool.and_eq_true, beq_iff_eq, all_eq_true, decide_eq_true_eq] at h
  obtain ⟨⟨⟨hinline, hall⟩, hap⟩, hns⟩ := h
  refine ⟨⟨fun t ht => (hall t ht).1, hap, ?_⟩, hns, hinline⟩
  intro us o ms c vs b hspl _ _ _ _
  exact isNeat_of_endsLine fun t ht => hl t (by simp [hspl, ht])

/-- Plain initializers can be written. -/
theorem writableInits_of_isPlainText (c : Class) (h : isPlainText x) : WritableInits p c x := by
  refine ⟨writable_of_isPlainText (some c) h, ?_⟩
  intro us o ms e vs b name hspl _ _ _ _ _ _ _
  exact isNeat_of_endsLine fun t ht => endsLine_of_isPlainText h t (by simp [hspl, ht])

end

/-! ## Programs -/

/-- The empty text can be written. -/
theorem writable_nil (owner : Option Class) : Writable p owner [] ∧ isNeat (tokenize []) := by
  have hpl : isPlainText [] := by cbv
  exact ⟨writable_of_isPlainText owner hpl, isNeat_of_endsLine (endsLine_of_isPlainText hpl)⟩

/-- A callable of `owner`, or a function, that can be written. -/
structure WritableCallable (p : Program) (owner : Option Class) (f : Callable) : Prop where
  cName : isName f.cName = true
  params : ∀ i q, f.params[i]? = some q → isName (f.paramName i) = true ∧ Declarable q.type
  body : ∀ b, f.body = some b → Writable p owner b.text
  initList : ∀ c b x, owner = some c → f.body = some b → b.initList = some x → WritableInits p c x

/-- A file-scope variable whose texts can be written. -/
structure WritableGlobal (p : Program) (g : GlobalVar) : Prop where
  name : isName g.name = true
  type : Declarable g.type
  init : ∀ x, g.initArgs = some x → Writable p none x ∧ isNeat (tokenize x) = true

/-- A program whose names and texts can be written. -/
structure WritableProgram (p : Program) : Prop where
  classes : ∀ c ∈ p.classes, isName c.name = true
  fields : ∀ c ∈ p.classes, ∀ v ∈ c.fields, isName v.name = true ∧ Declarable v.type
  methods : ∀ c ∈ p.classes, ∀ f ∈ c.methods, WritableCallable p (some c) f
  constructors : ∀ c ∈ p.classes, ∀ f ∈ c.constructors, WritableCallable p (some c) f
  enums : ∀ e ∈ p.enums, isName e.name = true
  constants : ∀ e ∈ p.enums, ∀ k ∈ e.constants, isName k.name = true
  functions : ∀ f ∈ p.signatures, WritableCallable p none f
  main : ∀ f, p.main = some f → WritableCallable p none f
  globals : ∀ g ∈ p.globals, WritableGlobal p g

namespace WritableProgram

variable {p : Program} {c : Class} {owner : Option Class} {f : Callable} {name x signature : Text}

/-- The names that lowering writes are names in C. -/
theorem hasNames (h : WritableProgram p) : HasNames p where
  classes := h.classes
  methods c hc f hf := (h.methods c hc f hf).cName
  constructors c hc f hf := (h.constructors c hc f hf).cName
  functions s hs f hf := (h.functions f (mem_flatMap.2 ⟨s, hs, hf⟩)).cName

theorem mem_of_none : ∀ c, (none : Option Class) = some c → c ∈ p.classes :=
  fun _ hc => nomatch hc

theorem mem_of_some (hc : c ∈ p.classes) : ∀ c', some c = some c' → c' ∈ p.classes :=
  fun _ hc' => Option.some.inj hc' ▸ hc

section

variable (h : WritableProgram p)

include h

theorem isName_initName (hc : c ∈ p.classes) : isName c.initName :=
  isName_append (h.classes c hc) rfl

theorem isName_cleanupName (hc : c ∈ p.classes) : isName c.cleanupName :=
  isName_append (h.classes c hc) rfl

theorem namesTypes : NamesTypes p.typeEnv :=
  namesTypes_typeEnv h.classes h.enums

/-- A declaration by a lowered type closes its brackets. -/
theorem closes_ctype {type : Text} (hn : isName name) (hty : Declarable type) : Closes ((p.ctype type).declare name) :=
  closes_declare h.namesTypes hn hty

end

/-! ### Signatures -/

theorem declarable_wellKnown : ∀ v ∈ wellKnownParams, isName v.name ∧ Declarable v.type := by
  have hdims : ∀ v ∈ wellKnownParams, isName v.name ∧ dimensions? v.type = none := by decide
  intro v hv
  obtain ⟨hn, hno⟩ := hdims v hv
  exact ⟨hn, declarable_of_none hno⟩

theorem closes_receiver (h : isName x) : Closes (x ++ "* self") := by
  refine ⟨.word, ?_, rfl⟩
  rw [run_append_of_eq (run_name h false false [])]
  rfl

/-- Each prepared parameter closes its brackets. -/
theorem closes_params (h : WritableProgram p) (hown : ∀ c, owner = some c → c ∈ p.classes)
    (hf : WritableCallable p owner f) : ∀ param ∈ (p.prepare owner f hasReceiver).params, Closes param := by
  intro param hpar
  simp only [prepare, mem_append] at hpar
  rcases hpar with (hpar | hpar) | hpar
  · split at hpar
    · obtain ⟨c, hc, rfl⟩ := mem_map.1 hpar
      exact closes_receiver (h.classes c (hown c (Option.mem_toList.1 hc)))
    · nomatch hpar
  · obtain ⟨i, hi, rfl⟩ := mem_mapIdx.1 hpar
    obtain ⟨hn, hty⟩ := hf.params i _ (getElem?_eq_getElem hi)
    exact h.closes_ctype hn hty
  · obtain ⟨v, hv, rfl⟩ := mem_map.1 hpar
    cases hb : f.body with
    | none =>
      rw [hb] at hv
      nomatch hv
    | some b =>
      rw [hb] at hv
      obtain ⟨hn, hty⟩ := declarable_wellKnown v (mem_filter.1 hv).1
      exact h.closes_ctype hn hty

/-- A signature closes its brackets if its parts do. -/
theorem closes_signature {g : Prepared} (hret : Closes g.ret.spelling) (hn : isName g.cName)
    (hps : ∀ param ∈ g.params, Closes param) : Closes g.signature := by
  refine closes_call (closes_typed hret hn) ?_
  split
  · exact ⟨_, rfl, rfl⟩
  · exact closes_join hps

/-- A prepared callable closes its signature's brackets. -/
theorem closes_prepare (h : WritableProgram p) (hown : ∀ c, owner = some c → c ∈ p.classes)
    (hf : WritableCallable p owner f) : Closes (p.prepare owner f hasReceiver).signature :=
  closes_signature (closes_spelling h.namesTypes _) hf.cName (h.closes_params hown hf)

theorem closes_prepareConstructor (h : WritableProgram p) (hc : c ∈ p.classes) (hf : WritableCallable p (some c) f) :
    Closes (p.prepareConstructor c f).signature :=
  closes_signature (closes_spelling h.namesTypes _) hf.cName (h.closes_params (mem_of_some hc) hf)

theorem closes_ofSelf (hn : isName name) (hc : isName c.name) : Closes ("void " ++ name ++ "(" ++ c.name ++ "* self)") := by
  have hvoid : Closes "void" := ⟨_, rfl, rfl⟩
  have hca := closes_call (closes_typed hvoid hn) (closes_receiver hc)
  simpa using hca

/-! ### Bodies -/

section

variable (h : WritableProgram p)

include h

/-- A lowered body is read as its source is, at another margin. -/
theorem readsBlock_lower {L : Lowering} (hp : L.program = p)
    (hown : ∀ c, L.owner = some c → c ∈ p.classes) (hx : Writable p L.owner x) : ReadsBlock (reindent (L.lower x)) := by
  subst hp
  obtain ⟨m, hr, hset⟩ := run_lower h.hasNames hown hx
  exact fun s => run_reindent hr hset

/-- The body of a callable is read as one block. -/
theorem readsBlock_bodyLines (hown : ∀ c, owner = some c → c ∈ p.classes)
    (hf : WritableCallable p owner f) : ReadsBlock (bodyLines (p.prepare owner f hasReceiver) f) := by
  unfold bodyLines
  split
  · next b hb => exact h.readsBlock_lower rfl hown (hf.body b hb)
  · refine readsBlock_of_closes fun line hl => ?_
    obtain ⟨value, hval, rfl⟩ := Option.map_eq_some_iff.1 (Option.mem_toList.1 hl)
    have hret : Closes ("return " ++ value) := .append_of_code rfl (closes_defaultValue? h.namesTypes hval)
    exact closes_semicolon hret

/-- The body of a constructor is read as one block. -/
theorem readsBlock_constructorLines (hc : c ∈ p.classes) (hf : WritableCallable p (some c) f) :
    ReadsBlock (p.constructorLines c f) := by
  unfold constructorLines
  split
  · exact fun s => rfl
  · next b hb =>
    refine readsBlock_append ?_ (h.readsBlock_lower rfl (mem_of_some hc) (hf.body b hb))
    cases hx : b.initList with
    | none => exact fun s => rfl
    | some x =>
      exact readsBlock_of_closes fun line hl =>
        closes_memberInits h.hasNames rfl hc (hf.initList c b x rfl hb hx) hl

/-- The line for a zero value closes its brackets. -/
theorem closes_zeroLine? {v : Var} (hv : isName v.name) {line : Text} (hl : p.zeroLine? v = some line) : Closes line := by
  unfold zeroLine? at hl
  dsimp only at hl
  split at hl
  · next member hmbr =>
    cases hl
    have hmem : member ∈ p.classes := by
      split at hmbr
      · nomatch hmbr
      · obtain ⟨className, -, hcls⟩ := Option.bind_eq_some_iff.1 hmbr
        exact mem_of_find?_eq_some hcls
    have hc := closes_call (closes_name (h.isName_initName hmem)) (closes_address (closes_member hv))
    simpa using closes_semicolon hc
  · obtain ⟨zero, hz, rfl⟩ := Option.map_eq_some_iff.1 hl
    have hval := closes_zeroValue? h.namesTypes hz
    exact closes_semicolon ((closes_member hv).sep hval rfl rfl)

/-- The set-up of an object is read as one block. -/
theorem readsBlock_initLines (hc : c ∈ p.classes) : ReadsBlock (p.initLines c) := by
  refine readsBlock_append (readsBlock_of_closes fun line hl => ?_) ?_
  · obtain ⟨v, hv, hl⟩ := mem_filterMap.1 hl
    exact h.closes_zeroLine? (h.fields c hc v hv).1 hl
  · cases hf : c.defaultConstructor? with
    | none => exact fun s => rfl
    | some f => exact h.readsBlock_constructorLines hc (h.constructors c hc f (mem_of_find?_eq_some hf))

end

/-! ### Items -/

/-- A function is balanced if signature and body are. -/
theorem balanced_function {body : List Text} (hsig : Closes signature) (hb : ReadsBlock body) :
    (Item.function signature body).Balanced :=
  ⟨[.curly], hsig.readsLine_open, hb, closes_nil.readsLine_close⟩

theorem balanced_prototype (h : Closes signature) : (Item.prototype signature).Balanced :=
  (closes_semicolon h).readsLine []

section

variable (h : WritableProgram p)

include h

/-- The structure of a class is balanced. -/
theorem balanced_structTypedef (hc : c ∈ p.classes) : (p.structTypedef c).Balanced := by
  have hn := h.classes c hc
  have hh : Closes ("typedef struct " ++ c.name) := .append_of_code rfl (closes_name hn)
  have hfoot : Closes (" " ++ c.name) := .append_of_code rfl (closes_name hn)
  refine ⟨[.curly], hh.readsLine_open, readsBlock_of_closes ?_, by simpa using (closes_semicolon hfoot).readsLine_close⟩
  intro line hl
  unfold memberLines at hl
  split at hl
  · rw [mem_singleton.1 hl]
    exact ⟨_, rfl, rfl⟩
  · obtain ⟨v, hv, rfl⟩ := mem_map.1 hl
    obtain ⟨hn, hty⟩ := h.fields c hc v hv
    exact closes_semicolon (h.closes_ctype hn hty)

/-- The prototypes of a class are balanced. -/
theorem balanced_classPrototypes (hc : c ∈ p.classes) : ∀ item ∈ p.classPrototypes c, item.Balanced := by
  have hn := h.classes c hc
  intro item hi
  simp only [classPrototypes, mem_append, mem_singleton, mem_map] at hi
  rcases hi with ((rfl | ⟨f, hf, rfl⟩) | ⟨f, hf, rfl⟩) | rfl
  · exact balanced_prototype (closes_ofSelf (h.isName_initName hc) hn)
  · exact balanced_prototype (h.closes_prepareConstructor hc (h.constructors c hc f (mem_of_mem_filter hf)))
  · exact balanced_prototype (h.closes_prepare (mem_of_some hc) (h.methods c hc f hf))
  · exact balanced_prototype (closes_ofSelf (h.isName_cleanupName hc) hn)

/-- The functions of a class are balanced. -/
theorem balanced_classFunctions (hc : c ∈ p.classes) : ∀ item ∈ p.classFunctions c, item.Balanced := by
  have hn := h.classes c hc
  intro item hi
  simp only [classFunctions, mem_append, mem_singleton, mem_map] at hi
  rcases hi with ((rfl | ⟨f, hf, rfl⟩) | ⟨f, hf, rfl⟩) | rfl
  · exact balanced_function (closes_ofSelf (h.isName_initName hc) hn) (h.readsBlock_initLines hc)
  · have hf := h.constructors c hc f (mem_of_mem_filter hf)
    have hs : Closes "self" := ⟨_, rfl, rfl⟩
    have hca := closes_semicolon (closes_call (closes_name (h.isName_initName hc)) hs)
    have hfst : ReadsBlock [c.initName ++ "(self);"] := by
      refine readsBlock_of_closes fun line hl => ?_
      rw [mem_singleton.1 hl]
      simpa using hca
    exact balanced_function (h.closes_prepareConstructor hc hf)
      (readsBlock_append hfst (h.readsBlock_constructorLines hc hf))
  · have hf := h.methods c hc f hf
    exact balanced_function (h.closes_prepare (mem_of_some hc) hf) (h.readsBlock_bodyLines (mem_of_some hc) hf)
  · refine balanced_function (closes_ofSelf (h.isName_cleanupName hc) hn) (readsBlock_of_closes fun line hl => ?_)
    rw [mem_singleton.1 hl]
    exact ⟨_, rfl, rfl⟩

theorem closes_functionSignature (hf : WritableCallable p none f) : Closes (p.prepareFunction f).signature :=
  h.closes_prepare mem_of_none hf

theorem balanced_functionItem (hf : WritableCallable p none f) : (p.functionItem f).Balanced :=
  balanced_function (h.closes_functionSignature hf) (h.readsBlock_bodyLines mem_of_none hf)

/-! ### Variables -/

/-- The constructor calls of `main` close their brackets. -/
theorem closes_globalConstructors : ∀ line ∈ p.globalConstructors, Closes line := by
  intro line hl
  obtain ⟨g, hg, hl⟩ := mem_filterMap.1 hl
  simp only [Option.bind_eq_bind, Option.bind_eq_some_iff] at hl
  obtain ⟨c, hc, hl⟩ := hl
  cases hl
  have hmem : c ∈ p.classes := by
    unfold globalClass? at hc
    dsimp only at hc
    split at hc
    · nomatch hc
    · obtain ⟨className, -, hcls⟩ := Option.bind_eq_some_iff.1 hc
      exact mem_of_find?_eq_some hcls
  have ha : Argument p none (.trim (g.initArgs.getD [])) := by
    cases hx : g.initArgs with
    | none =>
      obtain ⟨hwritable, hne⟩ := writable_nil none
      exact hwritable.argument_trim hne
    | some x =>
      obtain ⟨hwritable, hne⟩ := (h.globals g hg).init x hx
      exact hwritable.argument_trim hne
  exact closes_semicolon (closes_constructorCall h.hasNames mem_of_none hmem
    (closes_address (closes_name (h.globals g hg).name)) ha)

/-- The definition of a variable closes its brackets. -/
theorem closes_globalInit {g : GlobalVar} (hg : WritableGlobal p g) :
    Closes ((p.ctype g.type).declare g.name ++ p.globalInit g) := by
  have hdecl := h.closes_ctype hg.name hg.type
  unfold globalInit
  split
  · next args ha hcls =>
    obtain ⟨hwritable, hne⟩ := hg.init args ha
    have hval : Closes (lower { program := p } args) :=
      closes_lowerWithin h.hasNames mem_of_none (hwritable.argument hne) []
    dsimp only
    split
    · have hgrp : Closes ('\x7b' :: lower { program := p } args ++ ['\x7d']) := hval.group rfl rfl
      have hi : Closes ((p.ctype g.type).declare g.name ++ " = " ++
          ('\x7b' :: lower { program := p } args ++ ['\x7d'])) :=
        hdecl.sep hgrp rfl rfl
      simpa using hi
    · have hi : Closes ((p.ctype g.type).declare g.name ++ " = " ++ lower { program := p } args) :=
        hdecl.sep hval rfl rfl
      rwa [append_assoc] at hi
  · rw [append_nil]
    exact hdecl

/-- The function `main` is balanced. -/
theorem balanced_mainItem (hf : WritableCallable p none f) : (p.mainItem f).Balanced :=
  balanced_function (h.closes_functionSignature hf)
    (readsBlock_append (readsBlock_of_closes h.closes_globalConstructors)
      (h.readsBlock_bodyLines mem_of_none hf))

end

/-! ### Files -/

/-- A part with an empty line after it. -/
theorem balanced_withBlank {i : Item} (h : i.Balanced) : ∀ item ∈ [i, .blank], item.Balanced := by
  intro item hi
  simp only [mem_cons, not_mem_nil, or_false] at hi
  rcases hi with rfl | rfl
  · exact h
  · trivial

/-- Empty lines between items keep them balanced. -/
theorem balanced_spaced {items : List Item} (h : ∀ item ∈ items, item.Balanced) : ∀ item ∈ spaced items, item.Balanced := by
  intro item hit
  obtain ⟨i, hi, hit⟩ := mem_flatMap.1 hit
  exact balanced_withBlank (h i hi) item hit

section

variable (h : WritableProgram p)

include h

/-- The types of a program are balanced. -/
theorem balanced_typeDefinitions : ∀ item ∈ p.enumTypes ++ p.structTypes, item.Balanced := by
  intro item hi
  rcases mem_append.1 hi with hi | hi
  · obtain ⟨e, he, hi⟩ := mem_flatMap.1 hi
    exact balanced_withBlank (Enumeration.balanced_typedef (h.enums e he) (h.constants e he)) item hi
  · obtain ⟨c, hc, hi⟩ := mem_flatMap.1 hi
    exact balanced_withBlank (h.balanced_structTypedef (mem_classes_of_mem_orderedClasses hc)) item hi

theorem balanced_externGlobals : ∀ item ∈ p.externGlobals, item.Balanced := by
  intro item hi
  obtain ⟨g, hg, rfl⟩ := mem_map.1 hi
  have hdecl := h.closes_ctype (h.globals g hg).name (h.globals g hg).type
  have hextern : Closes ("extern " ++ (p.ctype g.type).declare g.name) := .append_of_code rfl hdecl
  exact (closes_semicolon hextern).readsLine []

theorem balanced_globalDefinitions : ∀ item ∈ p.globalDefinitions, item.Balanced := by
  intro item hi
  obtain ⟨g, hg, rfl⟩ := mem_map.1 hi
  exact (closes_semicolon (h.closes_globalInit (h.globals g hg))).readsLine []

/-- The declarations of a program are balanced. -/
theorem balanced_declarationPart (o : OutputOptions) : ∀ item ∈ p.declarationPart o, item.Balanced := by
  intro item hi
  simp only [declarationPart, mem_append, mem_singleton] at hi
  rcases hi with (((((((((hi | rfl) | hi) | rfl) | hi) | hi) | hi) | hi) | rfl) | hi) | rfl
  · exact balanced_standardIncludes item hi
  · trivial
  · exact balanced_xtalDefault o item hi
  · trivial
  · exact h.balanced_typeDefinitions item (mem_append_left _ hi)
  · exact h.balanced_typeDefinitions item (mem_append_right _ hi)
  · obtain ⟨c, hc, hi⟩ := mem_flatMap.1 hi
    rcases mem_append.1 hi with hi | hi
    · exact h.balanced_classPrototypes (mem_classes_of_mem_orderedClasses hc) item hi
    · rw [mem_singleton.1 hi]
      trivial
  · obtain ⟨f, hf, rfl⟩ := mem_map.1 hi
    exact balanced_prototype (h.closes_functionSignature (h.functions f hf))
  · trivial
  · exact h.balanced_externGlobals item hi
  · trivial

/-- The functions of some classes, some functions and `main`. -/
theorem balanced_definitions {classes : List Class} {functions : List Callable} {main : Option Callable}
    (hcls : ∀ c ∈ classes, c ∈ p.classes) (hfuns : ∀ f ∈ functions, f ∈ p.signatures)
    (hm : ∀ f, main = some f → p.main = some f) :
    ∀ item ∈ classes.flatMap p.classFunctions ++ functions.map p.functionItem ++ main.toList.map p.mainItem, item.Balanced := by
  intro item hi
  simp only [mem_append, mem_flatMap, mem_map, Option.mem_toList] at hi
  rcases hi with (⟨c, hc, hi⟩ | ⟨f, hf, rfl⟩) | ⟨f, hf, rfl⟩
  · exact h.balanced_classFunctions (hcls c hc) item hi
  · exact h.balanced_functionItem (h.functions f (hfuns f hf))
  · exact h.balanced_mainItem (h.main f (hm f hf))

/-- The definitions of a unit are balanced. -/
theorem balanced_unitDefinitions (l : Layout) (stem : Text) : ∀ item ∈ p.unitDefinitions l stem, item.Balanced := by
  have hm : (if stem = l.mainStem then p.main.toList.map p.mainItem else []) =
      (if stem = l.mainStem then p.main else none).toList.map p.mainItem := by
    split
    · rfl
    · rfl
  unfold unitDefinitions
  rw [hm]
  refine h.balanced_definitions ?_ ?_ ?_
  · exact fun c hc => mem_classes_of_mem_orderedClasses (mem_filter.1 hc).1
  · exact fun f hf => (mem_filter.1 hf).1
  · intro f hf
    split at hf
    · exact hf
    · nomatch hf

/-- Brackets are nested in the files of a single unit. -/
theorem nested_generateUnit (o : OutputOptions) {stem source : Text} (hsm : '\n' ∉ stem)
    (hsrc : Text.contains source "*/" = false) : ∀ f ∈ p.generateUnit o stem source, Nested (tokenize f.contents) := by
  intro f hf
  simp only [generateUnit, mem_cons, not_mem_nil, or_false] at hf
  rcases hf with rfl | rfl
  · exact nested_render (balanced_guarded hsrc (h.balanced_declarationPart o))
  · refine nested_render fun item hi => ?_
    simp only [mem_append, mem_cons, not_mem_nil, or_false] at hi
    rcases hi with ((((hi | hi) | rfl | rfl) | hi) | rfl) | hi
    · exact balanced_banner hsrc item hi
    · exact balanced_deviceInclude o item hi
    · exact balanced_includeLocal (by simp [hsm])
    · trivial
    · exact h.balanced_globalDefinitions item hi
    · trivial
    · refine balanced_spaced (h.balanced_definitions ?_ (fun f hf => hf) (fun f hf => hf)) item hi
      exact fun c hc => mem_classes_of_mem_orderedClasses hc

/-- Brackets are nested in the files of a batch. -/
theorem nested_generateBatch {o : OutputOptions} (hh : '\n' ∉ o.sharedHeader) {inputs : List Path}
    (hstems : ∀ stem ∈ (Layout.ofInputs p inputs).units, '\n' ∉ stem) (hsrc : Text.contains (sourceNames inputs) "*/" = false) :
    ∀ f ∈ p.generateBatch o inputs, Nested (tokenize f.contents) := by
  intro f hf
  simp only [generateBatch, mem_append, mem_cons, mem_filterMap] at hf
  rcases hf with (rfl | ⟨c, hc, hf⟩) | ⟨stem, hsm, hf⟩
  · exact nested_render (balanced_guarded hsrc (h.balanced_declarationPart o))
  · obtain ⟨stem, -, rfl⟩ := Option.map_eq_some_iff.1 hf
    refine nested_render (balanced_guarded hsrc fun item hi => ?_)
    simp only [mem_append, mem_cons, not_mem_nil, or_false] at hi
    rcases hi with ((rfl | rfl) | hi) | rfl
    · exact balanced_includeLocal hh
    · trivial
    · exact h.balanced_classPrototypes (mem_classes_of_mem_orderedClasses hc) item hi
    · trivial
  · unfold unitFile? at hf
    dsimp only at hf
    split at hf
    · nomatch hf
    cases hf
    refine nested_render fun item hi => ?_
    simp only [mem_append, mem_singleton] at hi
    rcases hi with (((((hi | hi) | rfl) | hi) | rfl) | hi) | hi
    · exact balanced_banner hsrc item hi
    · exact balanced_deviceInclude o item hi
    · exact balanced_includeLocal hh
    · split at hi
      · rw [mem_singleton.1 hi]
        exact balanced_includeLocal (by simp [hstems stem hsm])
      · nomatch hi
    · trivial
    · split at hi
      · rcases mem_append.1 hi with hi | hi
        · exact h.balanced_globalDefinitions item hi
        · rw [mem_singleton.1 hi]
          trivial
      · nomatch hi
    · exact balanced_spaced (h.balanced_unitDefinitions _ stem) item hi

end

end WritableProgram

/-! ## Plain programs -/

/-- The names of the function are names in C, and its texts are plain. -/
def Callable.isPlain (f : Callable) : Bool :=
  isName f.cName && (List.range f.params.length).all (fun i => isName (f.paramName i)) &&
    f.params.all (fun q => (dimensions? q.type).isNone) &&
    f.body.all fun b => isPlainText b.text && b.initList.all isPlainText

/-- A variable with a name in C that is no array. -/
def isPlainVar (name type : Text) : Bool :=
  isName name && (dimensions? type).isNone

/-- The names of the program are names in C, and its texts are plain. -/
def Program.isPlain (p : Program) : Bool :=
  p.classes.all (fun c => isName c.name && c.fields.all (fun v => isPlainVar v.name v.type) &&
      c.methods.all Callable.isPlain && c.constructors.all Callable.isPlain) &&
    p.enums.all (fun e => isName e.name && e.constants.all (isName ·.name)) && p.signatures.all Callable.isPlain &&
    p.main.all Callable.isPlain &&
    p.globals.all fun g => isPlainVar g.name g.type && g.initArgs.all isPlainText

/-- A plain callable can be written. -/
theorem writableCallable_of_isPlain {owner : Option Class} {f : Callable} (h : f.isPlain) : WritableCallable p owner f := by
  simp only [Callable.isPlain, Bool.and_eq_true, all_eq_true, Option.all_eq_true, mem_range] at h
  obtain ⟨⟨⟨hn, hns⟩, htys⟩, hbd⟩ := h
  refine ⟨hn, ?_, ?_, ?_⟩
  · intro i q hq
    obtain ⟨hi, rfl⟩ := List.getElem?_eq_some_iff.1 hq
    exact ⟨hns i hi, declarable_of_none (Option.isNone_iff_eq_none.1 (htys _ (getElem_mem hi)))⟩
  · exact fun b hb => writable_of_isPlainText owner (hbd b hb).1
  · exact fun c b x _ hb hx => writableInits_of_isPlainText c ((hbd b hb).2 x hx)

theorem of_isPlainVar {name type : Text} (h : isPlainVar name type) : isName name ∧ Declarable type := by
  rw [isPlainVar, Bool.and_eq_true] at h
  exact ⟨h.1, declarable_of_none (Option.isNone_iff_eq_none.1 h.2)⟩

/-- A plain program can be written. -/
theorem writableProgram_of_isPlain (h : p.isPlain) : WritableProgram p := by
  simp only [isPlain, Bool.and_eq_true, all_eq_true, Option.all_eq_true] at h
  obtain ⟨⟨⟨⟨hcls, hens⟩, hfuns⟩, hm⟩, hglob⟩ := h
  exact {
    classes := fun c hc => (hcls c hc).1.1.1
    fields := fun c hc v hv => of_isPlainVar ((hcls c hc).1.1.2 v hv)
    methods := fun c hc f hf => writableCallable_of_isPlain ((hcls c hc).1.2 f hf)
    constructors := fun c hc f hf => writableCallable_of_isPlain ((hcls c hc).2 f hf)
    enums := fun e he => (hens e he).1
    constants := fun e he k hk => (hens e he).2 k hk
    functions := fun f hf => writableCallable_of_isPlain (hfuns f hf)
    main := fun f hf => writableCallable_of_isPlain (hm f hf)
    globals := fun g hg =>
      { name := (of_isPlainVar (hglob g hg).1).1
        type := (of_isPlainVar (hglob g hg).1).2
        init := fun x hx =>
          have hpl := (hglob g hg).2 x hx
          ⟨writable_of_isPlainText none hpl, isNeat_of_endsLine (endsLine_of_isPlainText hpl)⟩ } }

/-! ## Generated files -/

/-- The brackets of every generated file are nested. -/
theorem WritableProgram.nested_contents {p : Program} (h : WritableProgram p) {o : OutputOptions}
    (hheader : '\n' ∉ o.sharedHeader) :
    (∀ stem source, '\n' ∉ stem → Text.contains source "*/" = false →
        ∀ f ∈ p.generateUnit o stem source, Nested (tokenize f.contents)) ∧
      ∀ inputs, (∀ stem ∈ (Layout.ofInputs p inputs).units, '\n' ∉ stem) →
        Text.contains (sourceNames inputs) "*/" = false →
          ∀ f ∈ p.generateBatch o inputs, Nested (tokenize f.contents) :=
  ⟨fun _ _ hstem hsource => h.nested_generateUnit o hstem hsource,
    fun _ hstems hsource => h.nested_generateBatch hheader hstems hsource⟩

/-- Arguments that end with a line comment are not neat: without the line feed, the comment takes in the bracket. -/
example : Bracket.passAll [] (tokenize (callText "Led_set" (some "&led") "1 // on\n")) = some [.round] := by cbv

/-- A class with a constructor and method, an object, and `main`. -/
def ledProgram : Program where
  classes := [{
    name := "Led"
    keyword := .classWord
    fields := [⟨"pin", "int"⟩]
    methods := [{
      name := "set"
      rawType := "void (int)"
      params := [⟨some "v", "int"⟩]
      cName := "Led_set"
      body := some { text := " pin = v; ", file := "led.cpp" } }]
    constructors := [{
      name := "Led"
      rawType := "void (int)"
      params := [⟨some "p", "int"⟩]
      cName := "Led_init_int"
      body := some { text := " set(p); ", file := "led.cpp", initList := some "pin(p)" } }] }]
  globals := [{ name := "led", type := "Led", hasInit := true, initArgs := some "2" }]
  main := some {
    name := "main"
    rawType := "int ()"
    cName := "main"
    body := some { text := " led.set(1 /* on */); ", file := "led.cpp" } }

theorem writableProgram_ledProgram : WritableProgram ledProgram :=
  writableProgram_of_isPlain (by cbv)

/-- The files of a program with calls and a member initializer. -/
theorem WritableProgram.nested_contents_ledProgram :
    WritableProgram ledProgram ∧ '\n' ∉ ({} : OutputOptions).sharedHeader ∧
      (∀ f ∈ ledProgram.generateUnit {} "led" "led.cpp", Nested (tokenize f.contents)) ∧
      ∀ f ∈ ledProgram.generateBatch {} [⟨"led.cpp"⟩], Nested (tokenize f.contents) := by
  have hheader : '\n' ∉ ({} : OutputOptions).sharedHeader := by decide
  obtain ⟨hunit, hbatch⟩ := writableProgram_ledProgram.nested_contents hheader
  refine ⟨writableProgram_ledProgram, hheader, hunit _ _ (by decide) (by decide), hbatch _ ?_ (by decide)⟩
  decide +kernel

end Declass
