import Declass.Proofs.Outline.Heads
import Mathlib

/-!
# An outline lists what a source defines

The pass finds exactly the definitions and classes of the tree of a source. Each part of the tree takes it from where the part starts
to what follows, with the same blocks around (`Finds`), so a sequence is read part by part (`Finds.trans`).
-/

namespace Declass

open List
open Fragment (chain_of_segment isPunct_of_tok? ofText)

namespace Outline

open Token Grammar

variable {F : Fragment} {b : List Enclosing} {k : Nat} {t : Token} {s : Step} {w name : Text} {start start' start'' : Nat}

/-! ## Steps of the pass -/

theorem scan_of_step (ht : F.tok? k = some t) (hs : step F b k t = some s) :
    scan F b k = s.found.toList ++ scan F s.blocks (max s.next (k + 1)) := by
  rw [scan]
  split
  · next hno => simp [ht] at hno
  · next u hu =>
    cases ht.symm.trans hu
    rw [hs]

theorem scan_step (ht : F.tok? k = some t) (hs : step F b k t = some s) (hnx : k < s.next) :
    scan F b k = s.found.toList ++ scan F s.blocks s.next := by
  rw [scan_of_step ht hs, max_eq_left hnx]

theorem scan_of_step_eq_none (ht : F.tok? k = some t) (hs : step F b k t = none) : scan F b k = [] := by
  rw [scan]
  split
  · rfl
  · next u hu =>
    cases ht.symm.trans hu
    rw [hs]

theorem scan_of_tok?_eq_none (h : F.tok? k = none) : scan F b k = [] := by
  rw [scan]
  split
  · rfl
  · next u hu => simp [h] at hu

/-- Definitions are looked for in the innermost block. -/
def IsSearched (b : List Enclosing) : Prop :=
  b.head? ≠ some .skipped

theorem step_ident (hb : IsSearched b) (hw : w ∉ structuralWords)
    (hnx : (F.tok? (k + 1)).any (·.kind == .string) = false) : step F b k ⟨.ident, w, start⟩ = nameStep F b k := by
  simp only [structuralWords, mem_cons, not_or] at hw
  obtain ⟨hns, htmp, henum, hcls, hstr, hunion, -⟩ := hw
  have hwd {v : Text} (hv : w ≠ v) : isWord ⟨.ident, w, start⟩ v = false := by simp [isWord, hv]
  have hp p : isPunct ⟨.ident, w, start⟩ p = false := rfl
  have hrec : isWordOf ⟨.ident, w, start⟩ ["class", "struct", "union"] = false := by
    simp only [isWordOf, any_cons, any_nil, hwd hcls, hwd hstr, hwd hunion, Bool.or_false]
  simp only [step, hp, if_neg hb, hnx, hwd hns, hwd htmp, hwd henum, hrec]
  simp [isIdent]

theorem step_tilde (hb : IsSearched b) : step F b k ⟨.punct, "~", start⟩ = nameStep F b k := by
  simp only [step, if_neg hb]
  simp [isPunct, isWord, isWordOf]

theorem step_mark {c : Char} (hc : c = ':' ∨ c = ';') : step F b k ⟨.punct, [c], start⟩ = some ⟨b, none, k + 1⟩ := by
  simp only [step]
  rcases hc with rfl | rfl <;> simp [isPunct, isWord, isWordOf, isIdent]

theorem step_close (b : List Enclosing) (start : Nat) :
    step F b k ⟨.punct, "\x7d", start⟩ = some (leaveBlock b k (start + 1)) := rfl

/-- A class with a name opens its block. -/
theorem step_record (hb : IsSearched b) (hw : w = "class" ∨ w = "struct")
    (hn : F.tok? (k + 1) = some ⟨.ident, name, start'⟩) (hbr : F.tok? (k + 2) = some ⟨.punct, "\x7b", start''⟩) :
    step F b k ⟨.ident, w, start⟩ = some ⟨.record name start :: b, none, k + 3⟩ := by
  have hf : F.findPunct? ["\x7b", ";", "=", "(", ")"] (k + 1) = some (k + 2) := by
    rw [Fragment.findPunct?_ident hn, Fragment.findPunct?_punct hbr (by decide)]
  have hcur : F.isPunct (k + 2) "\x7b" := isPunct_of_tok? hbr _
  have hid : F.ident? (k + 1) = some name := by
    rw [Fragment.ident?, hn]
    rfl
  have hs : step F b k ⟨.ident, w, start⟩ = some (recordStep F b k ⟨.ident, w, start⟩) := by
    simp only [step, if_neg hb]
    rcases hw with rfl | rfl <;> rfl
  rw [hs, recordStep, hf]
  dsimp only
  rw [hcur, hid]
  rcases hw with rfl | rfl <;> rfl

/-- A namespace with a name opens a block of the file. -/
theorem step_namespace (hb : IsSearched b) (hk : F.tok? k = some ⟨.ident, "namespace", start⟩)
    (hn : F.tok? (k + 1) = some ⟨.ident, name, start'⟩) (hbr : F.tok? (k + 2) = some ⟨.punct, "\x7b", start''⟩) :
    step F b k ⟨.ident, "namespace", start⟩ = some ⟨.fileScope :: b, none, k + 3⟩ := by
  have hf : F.findPunct? ["\x7b", ";"] k = some (k + 2) := by
    rw [Fragment.findPunct?_ident hk, Fragment.findPunct?_ident hn, Fragment.findPunct?_punct hbr (by decide)]
  have hcur : F.isPunct (k + 2) "\x7b" := isPunct_of_tok? hbr _
  have hs : step F b k ⟨.ident, "namespace", start⟩ = namespaceStep F b k := by
    simp only [step, if_neg hb]
    rfl
  rw [hs, namespaceStep, hf]
  simp only [bind, Option.bind, hcur, if_true, pure]

theorem nameStep_of_isApart (hw : F.tok? k = some ⟨.ident, w, start⟩) (ht : F.tok? (k + 1) = some t) (hap : IsApart t) :
    nameStep F b k = some ⟨b, none, k + 1⟩ := by
  obtain ⟨hcol, hsq, heq, hr⟩ := hap.isPunct_eq_false ht
  have hch : F.chain k = ([w], k + 1) := by
    rw [chain_of_segment (Fragment.segment?_ident hw), hcol]
    rfl
  simp only [nameStep, hch, Fragment.skipDims_of_not_isPunct hsq, heq, hr]
  simp

/-- A name that can be called, with parameters from `i` to `j`. -/
theorem nameStep_of_params {names : List Text} {name : Text} {i j start : Nat}
    (hch : F.chain k = (names ++ [name], i)) (hn : name ∉ notCallable) (ho : F.tok? i = some ⟨.punct, "(", start⟩)
    (hcl : F.close? i = some j) : nameStep F b k = callableStep F b k (names ++ [name]) name i j := by
  have hp p := isPunct_of_tok? ho p
  have hsq : F.isPunct i "[" = false := hp _
  have heq : F.isPunct i "=" = false := hp _
  have hr : F.isPunct i "(" := hp _
  simp only [nameStep, hch, Fragment.skipDims_of_not_isPunct hsq, heq, hr, hcl]
  simp [hn]

end Outline

namespace Grammar

open Token Outline

variable {src rest : Text} {b : List Enclosing} {k : Nat} {t : Token} {found : List OutlineItem} {g : Gap} {h : Head}
  {cls : Text} {f : Function}

/-! ## Parts of a tree -/

/-- The pass lists `found` from `k` to the text `rest`, in the same blocks. -/
def Finds (src : Text) (b : List Enclosing) (k : Nat) (found : List OutlineItem) (rest : Text) : Prop :=
  ∃ k', scan (ofText src) b k = found ++ scan (ofText src) b k' ∧ At src k' rest

theorem Finds.trans {mid : Text} {found' : List OutlineItem} (h : Finds src b k found mid)
    (h' : ∀ k', At src k' mid → Finds src b k' found' rest) : Finds src b k (found ++ found') rest := by
  obtain ⟨k₁, hscan, hat⟩ := h
  obtain ⟨k₂, hscan', hat'⟩ := h' k₁ hat
  exact ⟨k₂, by rw [hscan, hscan', append_assoc], hat'⟩

theorem finds_nil (h : At src k rest) : Finds src b k [] rest :=
  ⟨k, rfl, h⟩

theorem finds_ident {w : Text} {start : Nat} (hb : IsSearched b) (hw : w ∉ structuralWords)
    (hk : (ofText src).tok? k = some ⟨.ident, w, start⟩) (hnx : At src (k + 1) rest)
    (ht : (ofText src).tok? (k + 1) = some t) (hap : IsApart t) : Finds src b k [] rest := by
  have hstr : ((ofText src).tok? (k + 1)).any (·.kind == .string) = false := by
    rw [ht]
    exact beq_eq_false_iff_ne.2 hap.1
  have hs : step (ofText src) b k ⟨.ident, w, start⟩ = some ⟨b, none, k + 1⟩ := by
    rw [step_ident hb hw hstr, nameStep_of_isApart hk ht hap]
  exact ⟨k + 1, scan_step hk hs (Nat.lt_succ_self k), hnx⟩

theorem finds_mark {c : Char} (hc : c = ':' ∨ c = ';') (hcol : c = ':' → rest.head? ≠ some ':')
    (hr : Starts rest) (hk : At src k (c :: (g.text ++ rest))) : Finds src b k [] rest := by
  have hm : isMark c := by rcases hc with rfl | rfl <;> decide
  obtain ⟨ht, hnx⟩ := hk.mark hm (fun h => g.head_append_ne (hcol h)) hr
  exact ⟨k + 1, scan_step ht (step_mark hc) (Nat.lt_succ_self k), hnx⟩

/-- A word before a mark is passed. -/
theorem finds_word {w : Word} (hb : IsSearched b) (hw : w.text ∉ structuralWords) (hr : Ends rest)
    (hk : At src k (w.spelled ++ rest)) : Finds src b k [] rest := by
  obtain ⟨ht, hnx⟩ := hk.word hr.starts fun _ => hr.apart
  obtain ⟨t, hm, hap⟩ := hr.isApart hnx
  exact finds_ident hb hw ht hnx hm hap

theorem leads_type (ws : List TypeWord) (h : Leads rest) : Leads (ws.flatMap (·.spelled) ++ rest) := by
  cases ws with
  | nil => exact h
  | cons w ws =>
    rw [flatMap_cons, append_assoc]
    exact w.leads _

/-- The words of a type are passed. -/
theorem finds_type {ws : List TypeWord} (hb : IsSearched b) (hr : Leads rest)
    (hk : At src k (ws.flatMap (·.spelled) ++ rest)) : Finds src b k [] rest := by
  induction ws generalizing k with
  | nil => exact finds_nil hk
  | cons w ws ih =>
    rw [flatMap_cons, append_assoc] at hk
    have hleads := leads_type ws hr
    obtain ⟨hw, hnx⟩ := At.word hk hleads.starts fun hnil => absurd hnil w.apart
    obtain ⟨t, ht, hap⟩ := hleads.isApart hnx
    exact (finds_ident hb w.plain hw hnx ht hap).trans fun k' hk' => ih hk'

theorem finds_qualifiers {qs : List Qualifier} (hb : IsSearched b) (hap : qs.IsChain fun q _ => q.gap.text ≠ [])
    (hr : Ends rest) (hk : At src k (qs.flatMap (·.spelled) ++ rest)) : Finds src b k [] rest := by
  have hpl : ∀ w ∈ functionQualifiers, w ∉ structuralWords := by decide
  induction qs generalizing k with
  | nil => exact finds_nil hk
  | cons q qs ih =>
    obtain ⟨start, hq, hnx, t, ht, hno⟩ := Qualifier.next hap hr hk
    exact (finds_ident hb (hpl _ q.known) hq hnx ht hno).trans fun k' hk' => ih hap.tail hk'

/-! ## Functions -/

/-- What the first token of a function's name starts is a name. -/
theorem step_nameText {h : Head} (hb : IsSearched b) (hk : At src k (h.nameText ++ '(' :: rest)) :
    ∃ t, (ofText src).tok? k = some t ∧ step (ofText src) b k t = nameStep (ofText src) b k := by
  unfold Head.nameText Head.ownerText Head.tildeText at hk
  cases ho : h.owner with
  | some cg =>
    obtain ⟨c, g⟩ := cg
    simp only [ho, append_assoc] at hk
    obtain ⟨hc, hnx⟩ := At.word hk (.of_mark rfl _) fun _ d hd => by cases hd; decide
    have hcol := (At.first hnx rfl (tokenizeFrom_colons _)).1
    exact ⟨_, hc, step_ident hb c.plain (by rw [hcol]; rfl)⟩
  | none =>
    cases ht : h.tilde with
    | some g =>
      simp only [ho, ht] at hk
      exact ⟨_, hk.tok_mark rfl (fun h => nomatch h), step_tilde hb⟩
    | none =>
      simp only [ho, ht] at hk
      obtain ⟨hn, hnx⟩ := At.word hk (.of_mark rfl _) fun _ d hd => by cases hd; decide
      have hr := hnx.tok_mark rfl (fun h => nomatch h)
      exact ⟨_, hn, step_ident hb h.name.plain (by rw [hr]; rfl)⟩

theorem declared_notMem_notCallable : h.declared ∉ notCallable := by
  unfold Head.declared
  split
  · simp [notCallable]
  · exact h.name.callable

/-- The pass reads a function up to its body, and goes on as that says. -/
theorem scan_head (hb : IsSearched b) (hr : Ends rest) (hk : At src k (h.text ++ rest)) :
    ∃ k' i j, (ofText src).params i j = h.params.filterMap Param.written? ∧
      At src (j + 1) (h.qualifiers.flatMap (·.spelled) ++ rest) ∧
      ∀ s, callableStep (ofText src) b k' h.segments h.declared i j = some s → j < s.next →
        scan (ofText src) b k = s.found.toList ++ scan (ofText src) s.blocks s.next := by
  have htx : h.text ++ rest = h.type.flatMap (·.spelled) ++ (h.nameText ++ '(' :: (joinParams h.params ++ ')' ::
      (h.gap.text ++ (h.qualifiers.flatMap (·.spelled) ++ rest)))) := by simp [Head.text]
  rw [htx] at hk
  obtain ⟨k', hscan, hk'⟩ := finds_type hb h.nameText_leads hk
  obtain ⟨t, ht, hstep⟩ := step_nameText hb hk'
  obtain ⟨i, hi, hch, hati⟩ := h.chain_nameText hk'
  obtain ⟨ho, j, hcl, hatj, hps⟩ := h.params_eq hati
  have hlt := Fragment.lt_of_close? hcl
  have hst : Starts (h.qualifiers.flatMap (·.spelled) ++ rest) := by
    cases h.qualifiers with
    | nil => exact hr.starts
    | cons q qs =>
      rw [flatMap_cons, append_assoc]
      exact (q.leads _).starts
  refine ⟨k', i, j, hps, (hatj.mark rfl (fun h => nomatch h) hst).2, fun s hs hnx => ?_⟩
  rw [hscan]
  refine scan_step ht ?_ (by omega)
  rw [hstep, nameStep_of_params hch declared_notMem_notCallable ho hcl]
  exact hs

theorem ownerOf_segments (cls : Option Text) :
    ownerOf cls h.segments = (h.owner.elim cls fun (c, _) => some c.text, h.owner.isNone && cls.isSome) := by
  unfold Head.segments
  cases h.owner with
  | none | some => cases cls <;> rfl

/-- A prototype in a class defines nothing. -/
theorem finds_prototype (hb : IsSearched b) (hcls : currentClass b = some cls) (hr : Starts rest)
    (hk : At src k (h.text ++ ';' :: (g.text ++ rest))) : Finds src b k [] rest := by
  obtain ⟨k', i, j, -, hj, hscan⟩ := scan_head hb (.semicolon _) hk
  obtain ⟨q, hq, hsk, hatq⟩ := skipQualifiers_eq h.apart (.semicolon _) hj
  have hse := hatq.tok_mark rfl (fun h => nomatch h)
  have hs : callableStep (ofText src) b k' h.segments h.declared i j = some ⟨b, none, j + 1⟩ := by
    have hcol : (ofText src).isPunct q ":" = false := isPunct_of_tok? hse _
    have hbr : (ofText src).isPunct q "\x7b" = false := isPunct_of_tok? hse _
    simp only [callableStep, hsk, hcls, hcol, if_neg Bool.false_ne_true, Option.getD_none, hbr]
    rfl
  have hh : Finds src b k [] (h.qualifiers.flatMap (·.spelled) ++ ';' :: (g.text ++ rest)) :=
    ⟨j + 1, hscan _ hs (Nat.lt_succ_self j), hj⟩
  exact (hh.trans fun k₁ hk₁ => finds_qualifiers hb h.apart (.semicolon _) hk₁).trans fun k₂ hk₂ =>
    finds_mark (.inr rfl) (fun h => nomatch h) hr hk₂

/-- Between a head and a body stand the member initializers, after a `:`. -/
theorem listed_eq {q : Nat} {u : Text} (hq : At src q (f.initsText ++ '\x7b' :: u)) : ∃ listed p,
      (if (ofText src).isPunct q ":" then (ofText src).bodyAfterInits? (q + 1) else none) = listed ∧
      listed.getD q = p ∧ q ≤ p ∧ At src p ('\x7b' :: u) ∧ listed.map (fun p => ((ofText src).between q p).trim) =
        if f.inits.isEmpty then none else some (joinInits f.inits).trim := by
  unfold Function.initsText at hq
  cases hi : f.inits with
  | nil =>
    rw [hi] at hq
    have hcol : (ofText src).isPunct q ":" = false :=
      isPunct_of_tok? (hq.tok_mark rfl (fun h => nomatch h)) _
    exact ⟨none, q, by rw [hcol]; rfl, rfl, le_refl q, hq, rfl⟩
  | cons i is =>
    rw [hi] at hq
    have hne := joinInits_head_ne i is ('\x7b' :: u)
    have hcol : (ofText src).isPunct q ":" :=
      isPunct_of_tok? (hq.tok_mark rfl fun _ => hne) _
    obtain ⟨p, hp, hb, hat⟩ := bodyAfterInits?_eq i rfl hq
    have hbet := hq.between rfl (fun _ => hne) hat rfl (fun h => nomatch h)
    refine ⟨some p, p, by rw [hcol, if_pos rfl, hb], rfl, by omega, hat, ?_⟩
    rw [Option.map_some, hbet]
    rfl

theorem initsText_ends (u : Text) : Ends (f.initsText ++ '\x7b' :: u) := by
  unfold Function.initsText
  cases f.inits with
  | nil => exact .body u
  | cons i is => exact .inits _ (joinInits_head_ne i is _)

/-- A function with a body is listed. -/
theorem finds_function (hb : IsSearched b) (hr : Starts rest) (hk : At src k (f.text ++ rest)) :
    Finds src b k [f.item (currentClass b) (place src (f.text ++ rest))] rest := by
  have htx : f.text ++ rest = f.head.text ++ (f.initsText ++ '\x7b' :: (f.body.text ++ '\x7d' :: (f.gap.text ++ rest))) := by
    simp [Function.text, Function.before]
  have hbef : f.text ++ rest = f.before ++ (f.body.text ++ '\x7d' :: (f.gap.text ++ rest)) := by
    simp [Function.text]
  have hins : f.text ++ rest = f.before ++ f.body.text ++ '\x7d' :: (f.gap.text ++ rest) := by
    simp [Function.text]
  have hst := hk.place_append hbef
  have hsp := hk.place_append hins
  rw [Text.byteSize_append, ← add_assoc] at hsp
  rw [htx] at hk
  obtain ⟨k', i, j, hps, hj, hscan⟩ := scan_head hb (initsText_ends _) hk
  obtain ⟨q, hq, hsk, hatq⟩ := skipQualifiers_eq f.head.apart (initsText_ends _) hj
  obtain ⟨listed, p, hlisted, hp, hle, hatp, hinits⟩ := listed_eq hatq
  obtain ⟨ho, c, hcl, hatc⟩ := At.braces hatp
  obtain ⟨hbr, hnx⟩ := hatc.mark rfl (fun h => nomatch h) hr
  have hbd := hatp.between rfl (fun h => nomatch h) hatc rfl (fun h => nomatch h)
  have hlt := Fragment.lt_of_close? hcl
  have hcur : (ofText src).isPunct p "\x7b" := isPunct_of_tok? ho _
  have hspan : ((ofText src).tok? p).elim 0 stop = place src (f.text ++ rest) + f.before.byteSize := by
    rw [ho, hst]
    exact hatp.place_append rfl
  have hspan' : ((ofText src).tok? c).elim 0 start =
      place src (f.text ++ rest) + f.before.byteSize + f.body.text.byteSize := by
    rw [hbr, hsp]
    rfl
  have hs : callableStep (ofText src) b k' f.head.segments f.head.declared i j =
      some ⟨b, some (f.item (currentClass b) (place src (f.text ++ rest))), c + 1⟩ := by
    simp only [callableStep, hsk, hlisted, hp, hcur, hcl, ownerOf_segments, hps, hinits, hbd, hspan, hspan']
    rfl
  exact ⟨c + 1, hscan _ hs (by dsimp only; omega), hnx⟩

/-! ## Classes -/

/-- What can follow a part of a file or of a class. -/
def Follows (rest : Text) : Prop :=
  ∀ d, rest.head? = some d → startsIdent d = true ∨ d = '~' ∨ d = '\x7d'

theorem Follows.starts (h : Follows rest) : Starts rest := by
  intro d hd
  rcases h d hd with hd | rfl | rfl
  · exact isSpace_eq_false_of_continuesIdent (continuesIdent_of_startsIdent hd)
  · decide
  · decide

theorem Follows.head_ne (h : Follows rest) : rest.head? ≠ some ':' := by
  intro hd
  rcases h _ hd with hd | hd | hd
  · exact absurd hd (by decide)
  · exact absurd hd (by decide)
  · exact absurd hd (by decide)

theorem follows_nil : Follows [] :=
  fun _ hd => nomatch hd

theorem follows_close : Follows ('\x7d' :: rest) :=
  fun _ hd => .inr (.inr (Option.some.inj hd).symm)

theorem follows_of_leads (h : Leads rest) : Follows rest := by
  obtain ⟨c, hc, hst⟩ := h
  intro d hd
  cases hc.symm.trans hd
  exact hst.imp_right .inl

theorem leads_head : Leads (h.text ++ rest) := by
  simp only [Head.text, append_assoc]
  exact leads_type h.type h.nameText_leads

theorem leads_function : Leads (f.text ++ rest) := by
  simp only [Function.text, Function.before, append_assoc]
  exact leads_head

theorem leads_member (m : Member) : Leads (m.text ++ rest) := by
  cases m with
  | label word gap =>
    simp only [Member.text, append_assoc]
    exact word.leads _
  | field type name gap =>
    simp only [Member.text, append_assoc]
    exact leads_type type (name.leads _)
  | prototype head gap =>
    simp only [Member.text, append_assoc]
    exact leads_head
  | function f => exact leads_function

/-- A member is passed, and listed when it is a function with a body. -/
theorem finds_member {m : Member} (hb : IsSearched b) (hcls : currentClass b = some cls) (hr : Follows rest)
    (hk : At src k (m.text ++ rest)) : Finds src b k (m.items cls (place src (m.text ++ rest))) rest := by
  cases m with
  | label word gap =>
    simp only [Member.text, append_assoc] at hk
    refine (finds_word hb word.plain (.inits _ (gap.head_append_ne hr.head_ne)) hk).trans fun k' hk' => ?_
    exact finds_mark (.inl rfl) (fun _ => hr.head_ne) hr.starts hk'
  | field type name gap =>
    simp only [Member.text, append_assoc] at hk
    have hty := finds_type hb (name.leads _) hk
    refine (hty.trans fun k' hk' => finds_word hb name.plain (.semicolon _) hk').trans fun k' hk' => ?_
    exact finds_mark (.inr rfl) (fun h => nomatch h) hr.starts hk'
  | prototype head gap =>
    simp only [Member.text, append_assoc] at hk
    exact finds_prototype hb hcls hr.starts hk
  | function f =>
    have hf := finds_function hb hr.starts hk
    rwa [hcls] at hf

theorem follows_members (ms : List Member) : Follows (ms.flatMap Member.text ++ '\x7d' :: rest) := by
  cases ms with
  | nil => exact follows_close
  | cons m ms =>
    rw [flatMap_cons, append_assoc]
    exact follows_of_leads (leads_member m)

/-- The members of a class are listed up to its closing brace. -/
theorem finds_members {ms : List Member} (hb : IsSearched b) (hcls : currentClass b = some cls)
    (hk : At src k (ms.flatMap Member.text ++ '\x7d' :: rest)) :
    Finds src b k (Member.outline cls (place src (ms.flatMap Member.text ++ '\x7d' :: rest)) ms) ('\x7d' :: rest) := by
  induction ms generalizing k with
  | nil => exact finds_nil hk
  | cons m ms ih =>
    rw [flatMap_cons, append_assoc] at hk ⊢
    rw [Member.outline, hk.place_append rfl]
    exact (finds_member hb hcls (follows_members ms) hk).trans fun k' hk' => ih hk'

/-- What is listed when a block ends. -/
def blockItem? (e : Enclosing) (stop : Nat) : Option OutlineItem :=
  match e with
  | .record name start => some (.classBlock name ⟨start, stop⟩)
  | .fileScope => none
  | .skipped => none

/-- A block is read to its closing brace and left. -/
theorem finds_block {e : Enclosing} {k' : Nat} (ho : scan (ofText src) b k = scan (ofText src) (e :: b) k')
    (hin : Finds src (e :: b) k' found ('\x7d' :: (g.text ++ rest))) (hr : Starts rest) :
    Finds src b k (found ++ (blockItem? e (place src (g.text ++ rest))).toList) rest := by
  obtain ⟨j, hscan, hj⟩ := hin
  obtain ⟨hbr, hnx⟩ := hj.mark rfl (fun h => nomatch h) hr
  have hsp : place src ('\x7d' :: (g.text ++ rest)) + 1 = place src (g.text ++ rest) :=
    hj.place_append (x := ['\x7d']) rfl
  have hleave stop : leaveBlock (e :: b) j stop = ⟨b, blockItem? e stop, j + 1⟩ := by cases e <;> rfl
  have hs := step_close (F := ofText src) (k := j) (e :: b) (place src ('\x7d' :: (g.text ++ rest)))
  rw [hleave, hsp] at hs
  refine ⟨j + 1, ?_, hnx⟩
  rw [ho, hscan, scan_step hbr hs (Nat.lt_succ_self j), append_assoc]

/-- A class is listed after its members. -/
theorem finds_record {r : Record} (hb : IsSearched b) (hr : Starts rest) (hk : At src k (r.text ++ rest)) :
    Finds src b k (r.outline (place src (r.text ++ rest))) rest := by
  have htx : r.text ++ rest = r.keyword.spelled ++ (r.name.spelled ++ '\x7b' :: (r.openGap.text ++
      (r.members.flatMap Member.text ++ '\x7d' :: (r.closeGap.text ++ ';' :: (r.gap.text ++ rest))))) := by
    simp [Record.text, Record.block, Record.before]
  have hmems := hk.place_append (x := r.before)
    (y := r.members.flatMap Member.text ++ '\x7d' :: (r.closeGap.text ++ ';' :: (r.gap.text ++ rest)))
    (by simp [Record.text, Record.block])
  have hs := hk.place_append (x := r.block) (y := r.closeGap.text ++ ';' :: (r.gap.text ++ rest))
    (by simp [Record.text])
  have hkw : r.keyword.text = "class" ∨ r.keyword.text = "struct" := by
    unfold Record.keyword
    split
    · exact .inr rfl
    · exact .inl rfl
  rw [htx] at hk
  obtain ⟨start, start', hw, hn, hbr, hin⟩ := At.opening r.apart (follows_members r.members).starts hk
  rw [← htx] at hw
  have ho := scan_step hw (step_record hb hkw hn hbr) (by dsimp only; omega)
  have hlist := finds_members (b := .record r.name.text (place src (r.text ++ rest)) :: b) (by simp [IsSearched]) rfl hin
  have hblk := finds_block ho hlist (.of_mark rfl _)
  rw [← hmems, ← hs] at hblk
  have hall := hblk.trans fun k' hk' => finds_mark (.inr rfl) (fun h => nomatch h) hr hk'
  rwa [append_nil] at hall

/-! ## Files -/

theorem follows_items (items : Items) (hr : Follows rest) : Follows (items.text ++ rest) := by
  cases items with
  | nil => exact hr
  | function f after =>
    rw [Items.text, append_assoc]
    exact follows_of_leads leads_function
  | record r after =>
    simp only [Items.text, Record.text, Record.block, Record.before, append_assoc]
    exact follows_of_leads (r.keyword.leads _)
  | scope keyGap apart name openGap inside gap after =>
    simp only [Items.text, Items.opening, append_assoc]
    exact follows_of_leads ((Items.keyword keyGap).leads _)

/-- The innermost block, if there is one, is of the file. -/
def InFile (b : List Enclosing) : Prop :=
  ∀ e, b.head? = some e → e = .fileScope

theorem InFile.isSearched (h : InFile b) : IsSearched b :=
  fun hsk => nomatch h _ hsk

theorem InFile.currentClass (h : InFile b) : currentClass b = none := by
  cases b with
  | nil => rfl
  | cons e b => cases h e rfl; rfl

/-- The items are listed in their order. -/
theorem finds_items {items : Items} (hb : InFile b) (hr : Follows rest) (hk : At src k (items.text ++ rest)) :
    Finds src b k (items.outline (place src (items.text ++ rest))) rest := by
  induction items generalizing b k rest with
  | nil => exact finds_nil hk
  | function f after ih =>
    rw [Items.text, append_assoc] at hk ⊢
    have hf := finds_function hb.isSearched (follows_items after hr).starts hk
    rw [hb.currentClass] at hf
    rw [Items.outline, hk.place_append rfl]
    exact hf.trans fun k' hk' => ih hb hr hk'
  | record r after ih =>
    rw [Items.text, append_assoc] at hk ⊢
    rw [Items.outline, hk.place_append rfl]
    exact (finds_record hb.isSearched (follows_items after hr).starts hk).trans fun k' hk' => ih hb hr hk'
  | scope keyGap apart name openGap inside gap after ihInside ihAfter =>
    have haft := hk.place_append (x := Items.opening keyGap name openGap ++ (inside.text ++ "\x7d" ++ gap.text))
      (y := after.text ++ rest) (by simp [Items.text])
    rw [Text.byteSize_append, ← add_assoc] at haft
    have hins := hk.place_append (x := Items.opening keyGap name openGap)
      (y := inside.text ++ '\x7d' :: (gap.text ++ (after.text ++ rest))) (by simp [Items.text])
    have hfol := follows_items after hr
    have htx : (Items.scope keyGap apart name openGap inside gap after).text ++ rest = (Items.keyword keyGap).spelled ++
        (name.spelled ++ '\x7b' :: (openGap.text ++ (inside.text ++ '\x7d' :: (gap.text ++ (after.text ++ rest))))) := by
      simp [Items.text, Items.opening]
    rw [htx] at hk
    obtain ⟨start, start', hw, hn, hbr, hin⟩ :=
      At.opening apart (follows_items inside follows_close).starts hk
    have ho := scan_step hw (step_namespace hb.isSearched hw hn hbr) (by dsimp only; omega)
    have hlist := ihInside (b := .fileScope :: b) (fun e he => (Option.some.inj he).symm) follows_close hin
    have hblk := finds_block ho hlist hfol.starts
    have hall := hblk.trans fun k' hk' => ihAfter hb hr hk'
    rw [blockItem?, Option.toList_none, append_nil] at hall
    rw [Items.outline, haft, hins]
    exact hall

theorem starts_items (items : Items) : Starts items.text := by
  have hfol : Follows (items.text ++ []) := follows_items items follows_nil
  rw [append_nil] at hfol
  exact hfol.starts

theorem place_items (f : File) : place f.text f.items.text = f.lead.byteSize := by
  rw [place, File.text, Text.byteSize_append]
  omega

/-- The items of a file start with its first significant token. -/
theorem at_items (f : File) : At f.text 0 f.items.text := by
  have htr (t : Token) ht : t.isTrivia := all_eq_true.1 f.trivia t ht
  have he : EndsBefore (tokenize f.lead) f.items.text := by
    intro t ht
    have hcl := f.closed
    rw [isClosed, ht, Option.all_some, Bool.and_eq_true, Bool.not_eq_true'] at hcl
    exact ⟨hcl.1, hcl.2, fun d hd => .inl ⟨htr t (mem_of_getLast? ht), starts_items f.items d hd⟩⟩
  have hts := tokenizeFrom_append he
  rw [zero_add, ← place_items] at hts
  have hno : (tokenize f.lead).filter (!·.isTrivia) = [] :=
    filter_eq_nil_iff.2 fun t ht => by simp [htr t ht]
  exact ⟨_, tokenize f.lead, hts, by rw [hno, length_nil]⟩

theorem members_ne_global (g : GlobalInit) (offset : Nat) (ms : List Member) :
    OutlineItem.global g ∉ Member.outline cls offset ms := by
  induction ms generalizing offset with
  | nil => exact not_mem_nil
  | cons m ms ih =>
    cases m <;> simp [Member.outline, Member.items, Function.item, ih]

theorem items_ne_global (g : GlobalInit) (offset : Nat) (items : Items) : OutlineItem.global g ∉ items.outline offset := by
  induction items generalizing offset with
  | nil => exact not_mem_nil
  | function f after ih => simp [Items.outline, Function.item, ih]
  | record r after ih => simp [Items.outline, Record.outline, members_ne_global, ih]
  | scope keyGap apart name openGap inside gap after ihInside ihAfter => simp [Items.outline, ihInside, ihAfter]

/-- The outline of a file is that of its tree: every definition and class is listed, in order and with its owner, parameters,
texts and place, and nothing else is. -/
theorem ofSource_text (f : File) : ofSource f.text = ofItems f.outline ∧ (ofSource f.text).globals = [] := by
  have hitems : At f.text 0 (f.items.text ++ []) := by
    rw [append_nil]
    exact at_items f
  obtain ⟨k, hscan, hend⟩ := finds_items (b := []) (fun e he => nomatch he) follows_nil hitems
  rw [scan_of_tok?_eq_none hend.tok_nil, append_nil, append_nil, place_items] at hscan
  have hsource : ofSource f.text = ofItems f.outline := congrArg ofItems hscan
  refine ⟨hsource, ?_⟩
  rw [hsource]
  refine filterMap_eq_nil_iff.mpr fun item hitem => ?_
  cases item with
  | definition d => rfl
  | classBlock name span => rfl
  | global g => exact absurd hitem (items_ne_global g _ _)

/-! ### A file with a class and a namespace -/

def noGap : Gap where
  text := []
  trivia := by cbv
  closed := by cbv

def blank : Gap where
  text := " "
  trivia := by cbv
  closed := by cbv

def ledName (gap : Gap) : Name where
  text := "Led"
  isName := by decide
  gap
  plain := by decide
  callable := by decide

/-- `void on() const`, with or without the class before its name. -/
def onHead (owner : Option (Name × Gap)) : Head where
  type := [{ text := "void", isName := by decide, gap := blank, plain := by decide, apart := by decide }]
  owner
  tilde := none
  name := { text := "on", isName := by decide, gap := noGap, plain := by decide, callable := by decide }
  params := []
  gap := blank
  qualifiers := [{ text := "const", isName := by decide, gap := blank, known := by decide }]
  apart := .singleton _

def pinParam : Param where
  text := "int p = max(1, 2)"
  nested := by unfold Nested; cbv
  noAngles := by cbv
  noComma := by cbv
  closed := by cbv

/-- `Led(int p = max(1, 2)) : pin(p) {…}`, with a brace in a comment of its body. -/
def ledConstructor : Function where
  head :=
    { type := [], owner := none, tilde := none, name := ledName noGap, params := [pinParam], gap := blank,
      qualifiers := [], apart := .nil }
  inits :=
    [{ lead := blank, name := { text := "pin", isName := by decide, gap := noGap }, bracket := .round,
       round_or_curly := by decide, args := { text := "p", balanced := by cbv, closed := by cbv }, gap := blank }]
  body := { text := " on(); // \x7d\n", balanced := by cbv, closed := by cbv }
  gap := blank

/-- `void Led::on() const {…}`. -/
def turnOn : Function where
  head := onHead (some (ledName noGap, noGap))
  inits := []
  body := { text := " \x7b pin = 1; \x7d ", balanced := by cbv, closed := by cbv }
  gap := blank

def ledClass : Record where
  isStruct := false
  keyGap := blank
  apart := by decide
  name := ledName blank
  openGap := blank
  members := [.function ledConstructor, .prototype (onHead none) blank]
  closeGap := noGap
  gap := blank

def ledFile : File where
  lead := "#pragma once\n"
  trivia := by cbv
  closed := by cbv
  items := .record ledClass (.scope blank (by decide) (ledName blank) blank (.function turnOn .nil) noGap .nil)

theorem ofSource_text_ledFile :
    ledFile.text =
        ("#pragma once\nclass Led \x7b Led(int p = max(1, 2)) : pin(p) \x7b on(); // \x7d\n\x7d void on() const ; \x7d; " ++
          "namespace Led \x7b void Led::on() const \x7b \x7b pin = 1; \x7d \x7d \x7d" : Text) ∧
      ofSource ledFile.text =
        { definitions :=
            [⟨some "Led", "Led", true, [⟨"int", some "p"⟩], some "pin(p)", " on(); // \x7d\n", ⟨58, 70⟩⟩,
              ⟨some "Led", "on", false, [], none, " \x7b pin = 1; \x7d ", ⟨131, 145⟩⟩]
          classes := [("Led", ⟨13, 91⟩)]
          globals := [] } := by
  have hparams : ledConstructor.head.params.filterMap Param.written? = [⟨"int", some "p"⟩] := by cbv
  refine ⟨by decide +kernel, ?_⟩
  rw [(ofSource_text ledFile).1, ← hparams]
  rfl

end Grammar

end Declass
