import Declass.Proofs.Outline.Declarators

/-!
# File-scope variables

The walk back from a declarator finds the last word of the type. Main statement: from a declaration at file scope on, the pass lists
one initializer for each declarator that has one, and goes on after the `;` (`Declaration.globals_ofSource`).
-/

namespace Declass

open Fragment List Outline

namespace Variable

open Token

section Whole

variable {src word : Text} {b : List Enclosing} {start first k : Nat} {F : Fragment} {t : Token} {D : Declaration}
  {rest : List Token}

/-! ## The type -/

/-- Up to `e` stand the words of a type, then a name or a pointer. -/
structure TypeTo (F : Fragment) (e j : Nat) : Prop where
  le : j ≤ e
  part : ∀ i, j ≤ i → i < e → ∃ t, F.tok? i = some t ∧ isTypePart t = true
  last : F.isPunct (e - 1) "::" = false
  next : ∃ t, F.tok? e = some t ∧ (t.isIdent = true ∨ isPointer t = true)

namespace TypeTo

variable {F : Fragment} {e i j : Nat}

section

variable (h : TypeTo F e j)

include h

theorem mono (hj : j ≤ i) (hi : i ≤ e) : TypeTo F e i :=
  ⟨hi, fun l hl hle => h.part l (hj.trans hl) hle, h.last, h.next⟩

/-- Names, `::` and pointers stand there. -/
theorem exists_tok? : ∃ t, F.tok? j = some t ∧ (t.isIdent ∨ ∃ p ∈ (["::", "*", "&"] : List Text), t.isPunct p) := by
  rcases Nat.lt_or_eq_of_le h.le with hlt | rfl
  · obtain ⟨t, ht, hpt⟩ := h.part j (Nat.le_refl j) hlt
    refine ⟨t, ht, ?_⟩
    rcases Bool.or_eq_true_iff.1 hpt with hord | hcol
    · exact .inl (isOrdinary_iff.1 hord).1
    · exact .inr ⟨"::", by decide, hcol⟩
  · obtain ⟨t, ht, hid | hptr⟩ := h.next
    · exact ⟨t, ht, .inl hid⟩
    · rcases isPunct_of_isPointer hptr with hp | hp
      · exact ⟨t, ht, .inr ⟨"*", by decide, hp⟩⟩
      · exact ⟨t, ht, .inr ⟨"&", by decide, hp⟩⟩

theorem isPunct_eq_false {p : Text} (hp : p ∉ (["::", "*", "&"] : List Text)) : F.isPunct j p = false := by
  obtain ⟨t, ht, hid | ⟨p', hp', hpun⟩⟩ := h.exists_tok?
  · rw [isPunct_of_tok? ht, isPunct_eq_false_of_isIdent hid]
  · rw [← isPunct_of_tok? ht] at hpun
    exact Fragment.isPunct_eq_false hpun fun heq => hp (heq ▸ hp')

theorem not_string : (F.tok? j).any (·.kind == .string) = false := by
  obtain ⟨t, ht, hid | ⟨p, -, hp⟩⟩ := h.exists_tok?
  · obtain ⟨start, heq⟩ := eq_of_isIdent hid
    rw [ht, heq]
    rfl
  · rw [← isPunct_of_tok? ht] at hp
    exact not_string_of_isPunct hp

theorem not_colons : F.isPunct e "::" = false := by
  obtain ⟨t, ht, hid | hptr⟩ := h.next
  · rw [isPunct_of_tok? ht, isPunct_eq_false_of_isIdent hid]
  · rcases isPunct_of_isPointer hptr with hp | hp
    · exact Fragment.isPunct_eq_false ((isPunct_of_tok? ht _).trans hp) (by decide)
    · exact Fragment.isPunct_eq_false ((isPunct_of_tok? ht _).trans hp) (by decide)

/-- A qualified name of the type ends within the type: its last word follows no `::`. -/
theorem chain_le (hlt : j < e) : (F.chain j).2 ≤ e := by
  induction hn : e - j using Nat.strongRecOn generalizing j with
  | ind n ih =>
    obtain ⟨t, ht, hp⟩ := h.part j (Nat.le_refl j) hlt
    rcases Bool.or_eq_true_iff.1 hp with hord | hcol
    · obtain ⟨start, heq⟩ := eq_of_isIdent (isOrdinary_iff.1 hord).1
      rw [chain_of_segment (segment?_ident (ht.trans (congrArg some heq)))]
      split
      · next hcol =>
        have hne : j + 1 ≠ e := by
          intro heq
          rw [heq, h.not_colons] at hcol
          cases hcol
        have hne' : j + 1 ≠ e - 1 := by
          intro heq
          rw [heq, h.last] at hcol
          cases hcol
        exact ih (e - (j + 1 + 1)) (by omega) (h.mono (by omega) (by omega)) (by omega) rfl
      · exact hlt
    · have hno : segment? (F.tokens.drop j) = none := by
        obtain ⟨start, rfl⟩ := eq_of_isPunct hcol
        rw [drop_of_tok? ht]
        rfl
      rw [chain_of_segment_none hno]
      exact h.le

theorem step (hb : Outline.IsSearched b) (hlt : j < e) :
    ∃ t next, F.tok? j = some t ∧ step F b j t = some ⟨b, none, next⟩ ∧ next ≤ e := by
  obtain ⟨t, ht, hp⟩ := h.part j (Nat.le_refl j) hlt
  rcases Bool.or_eq_true_iff.1 hp with hord | hcol
  · have haft := h.mono (F.le_chain j) (h.chain_le hlt)
    have hr : F.isPunct (F.chain j).2 "(" = false := haft.isPunct_eq_false (by decide)
    have hsq : F.isPunct (F.chain j).2 "[" = false := haft.isPunct_eq_false (by decide)
    have heq : F.isPunct (F.chain j).2 "=" = false := haft.isPunct_eq_false (by decide)
    have hn : ∃ next, nameStep F b j = some ⟨b, none, next⟩ ∧ next ≤ e := by
      simp only [nameStep, skipDims_of_not_isPunct hsq, heq, hr, Bool.and_false]
      cases (F.chain j).1.getLast? with
      | none => exact ⟨j + 1, rfl, hlt⟩
      | some name => exact ⟨_, rfl, haft.le⟩
    obtain ⟨next, hs, hnx⟩ := hn
    exact ⟨t, next, ht, (step_name hb hord (h.mono (Nat.le_succ j) hlt).not_string).trans hs, hnx⟩
  · obtain ⟨start, rfl⟩ := eq_of_isPunct hcol
    exact ⟨_, j + 1, ht, step_of_plain hb rfl rfl rfl rfl, hlt⟩

/-- The pass goes over the words of a type. -/
theorem passes (hb : Outline.IsSearched b) : Outline.Passes F b j [] b e := by
  induction hn : e - j using Nat.strongRecOn generalizing j with
  | ind n ih =>
    rcases Nat.lt_or_eq_of_le h.le with hlt | rfl
    · obtain ⟨t, next, ht, hs, hnx⟩ := h.step hb hlt
      have hmax : max next (j + 1) ≤ e := by omega
      exact .step ht hs (ih (e - max next (j + 1)) (by omega) (h.mono (by omega) hmax) rfl)
    · exact .refl b j

end

end TypeTo

/-- The type is the word before the first declarator's name. -/
theorem declaredType?_eq {w j : Nat} (hlt : start < first) (hj : first ≤ j) (hst : F.declarationStart 0 j = start)
    (hins : ∀ i, start ≤ i → i ≤ first → F.endsDeclarator i = false) (hn : F.isIdent first)
    (he : F.endsDeclarator (first + 1)) (hback : F.skipPointersBack? (first - 1) = some w)
    (hw : F.ident? w = some word) : F.declaredType? j = some word := by
  have hf : (List.range' (start + 1) (j - start)).find? (fun i => F.isIdent i && F.endsDeclarator (i + 1)) = some first := by
    rw [find?_range'_eq_some]
    refine ⟨by rw [hn, he]; rfl, by rw [mem_range'_1]; omega, fun i hi hlt' => ?_⟩
    rw [hins (i + 1) (by omega) (by omega), Bool.and_false]
    rfl
  simp only [declaredType?, hst, hf, hback, Option.bind_eq_bind, Option.bind_some, hw]

theorem skipPointersBack?_pointers {ms : List (Led isPointer)} (h : F.Shows (k + 1) (ms.map (·.token))) :
    F.skipPointersBack? (k + ms.length) = F.skipPointersBack? k := by
  induction ms generalizing k with
  | nil => rfl
  | cons m ms ih =>
    obtain ⟨hm, hms⟩ := shows_cons.1 h
    have hptr : (F.isPunct (k + 1) "*" || F.isPunct (k + 1) "&") := by
      rw [isPunct_of_tok? hm, isPunct_of_tok? hm, Bool.or_eq_true_iff]
      exact isPunct_of_isPointer m.isToken
    rw [length_cons, Nat.add_comm ms.length, ← Nat.add_assoc, ih hms, skipPointersBack?, if_pos hptr]

theorem skipPointersBack?_word (ht : F.tok? k = some t) (h : t.isIdent) : F.skipPointersBack? k = some k := by
  have hno : ¬(F.isPunct k "*" || F.isPunct k "&") := by
    rw [isPunct_of_tok? ht, isPunct_of_tok? ht, isPunct_eq_false_of_isIdent h, isPunct_eq_false_of_isIdent h]
    decide
  cases k with
  | zero | succ => rw [skipPointersBack?, if_neg hno]

/-- The type of a declaration at `start`, and its declarators. -/
structure Opening (src : Text) (start : Nat) (D : Declaration) (rest : List Token) : Prop where
  type : (ofText src).Shows start (D.type.map (·.token) ++ [D.last.token])
  declarators : Rest src (start + D.type.length + 1) (D.declarators.tokens ++ rest)

theorem Rest.opening (h : Rest src start (D.tokens ++ rest)) : Opening src start D rest := by
  have h' : Rest src start ((D.type.flatMap Led.tokens ++ D.last.tokens) ++ (D.declarators.tokens ++ rest)) := by
    simpa only [Declaration.tokens, append_assoc] using h
  have hty := h'.shows
  have hdecls := h'.drop
  rw [significant_append, significant_flatMap_led, D.last.significant_tokens] at hty hdecls
  refine ⟨hty, ?_⟩
  rwa [length_append, length_map] at hdecls

theorem Rest.exists_layout {ds : Declarators word} (h : Rest src k (ds.tokens ++ rest)) :
    ∃ sep rest', Layout src k ds.first sep rest' := by
  cases ds with
  | last d semicolon =>
    rw [Declarators.tokens, append_assoc] at h
    exact ⟨_, _, Rest.layout h (isPunctOf_of_mem semicolon.property (by decide))⟩
  | more d comma ds =>
    rw [Declarators.tokens, append_assoc] at h
    exact ⟨_, _, Rest.layout h (isPunctOf_of_mem comma.property (by decide))⟩

namespace Opening

variable {D : Declaration} {rest : List Token}

/-- No bracket and no mark after a declared name is part of a type. -/
theorem isPunctOf_eq_false {t : Token} (ht : t ∈ D.type.map (·.token) ++ [D.last.token]) {ps : List Text}
    (hps : "::".toList ∉ ps) : t.isPunctOf ps = false := by
  rcases mem_append.1 ht with ht | ht
  · obtain ⟨m, -, rfl⟩ := mem_map.1 ht
    rcases Bool.or_eq_true_iff.1 m.isToken with hord | hcol
    · exact isPunctOf_eq_false_of_isIdent (isOrdinary_iff.1 hord).1 ps
    · exact isPunctOf_of_isPunct hcol hps
  · obtain rfl := mem_singleton.1 ht
    exact isPunctOf_eq_false_of_isIdent (isOrdinary_iff.1 D.last.isToken).1 ps

theorem length_type : (D.type.map (·.token) ++ [D.last.token]).length = D.type.length + 1 := by
  rw [length_append, length_map, length_singleton]

section

variable (O : Opening src start D rest)

include O

theorem last : (ofText src).tok? (start + D.type.length) = some D.last.token := by
  have hl := (shows_append.1 O.type).2.tok?
  rwa [length_map] at hl

theorem declarationStart : (ofText src).declarationStart 0 (start + D.type.length + 1) =
      (ofText src).declarationStart 0 start := by
  have hcr := declarationStart_plain O.type fun t ht => isPunctOf_eq_false ht (by decide)
  rwa [length_type] at hcr

/-- The token before the first name is no name before a mark. -/
theorem endsDeclarator_eq_false {i : Nat} (hst : start ≤ i)
    (hi : i ≤ D.declarators.first.nameAt (start + D.type.length + 1)) : (ofText src).endsDeclarator i = false := by
  obtain ⟨sep, rest', L⟩ := O.declarators.exists_layout
  have hm {t : Token} (ht : (ofText src).tok? i = some t)
      (h : t.isPunctOf ["(", "\x7b", "=", ",", ";", "["] = false) : (ofText src).endsDeclarator i = false := by
    rw [endsDeclarator, ht, Option.any_some, h]
  by_cases hty : i < start + D.type.length + 1
  · obtain ⟨t, ht, htok⟩ := O.type.exists_tok? hst (by rw [length_type]; omega)
    exact hm htok (isPunctOf_eq_false ht (by decide))
  rcases Nat.lt_or_eq_of_le hi with hlt | rfl
  · obtain ⟨t, ht, htok⟩ := L.pointers.exists_tok? (Nat.le_of_not_lt hty) (by rw [length_map]; exact hlt)
    obtain ⟨m, -, rfl⟩ := mem_map.1 ht
    exact hm htok (isPunctOf_of_isPointer m.isToken (by decide) (by decide))
  · exact hm L.name (isPunctOf_eq_false_of_isIdent Layout.isIdent_name _)

theorem site (hb : Grammar.InFile b) :
    Site src b start (D.declarators.first.nameAt (start + D.type.length + 1)) D.last.token.text := by
  obtain ⟨sep, rest', L⟩ := O.declarators.exists_layout
  have hlt : start < D.declarators.first.nameAt (start + D.type.length + 1) := by
    unfold Declarator.nameAt
    omega
  refine ⟨hb, hlt, fun j hj hst => ?_⟩
  have he : (ofText src).endsDeclarator (D.declarators.first.nameAt (start + D.type.length + 1) + 1) := by
    obtain ⟨p, hp, hpun, -⟩ := L.isPunct_after
    obtain ⟨t, ht, htp⟩ := (Option.any_eq_true _ _).1 hpun
    rw [endsDeclarator, ht]
    exact isPunctOf_of_mem htp hp
  have hback : (ofText src).skipPointersBack? (D.declarators.first.nameAt (start + D.type.length + 1) - 1) =
      some (start + D.type.length) := by
    have hpl : D.declarators.first.nameAt (start + D.type.length + 1) - 1 =
        start + D.type.length + D.declarators.first.pointers.length := by
      unfold Declarator.nameAt
      omega
    rw [hpl, skipPointersBack?_pointers L.pointers, skipPointersBack?_word O.last (isOrdinary_iff.1 D.last.isToken).1]
  refine declaredType?_eq hlt hj hst (fun i hi hle => O.endsDeclarator_eq_false hi hle) ?_ he hback
    (ident?_of_tok? O.last (isOrdinary_iff.1 D.last.isToken).1)
  rw [Fragment.isIdent, L.name]
  exact Layout.isIdent_name

theorem typeTo : TypeTo (ofText src) (start + D.type.length + 1) start := by
  obtain ⟨sep, rest', L⟩ := O.declarators.exists_layout
  refine ⟨by omega, fun i hi hlt => ?_, ?_, ?_⟩
  · obtain ⟨t, ht, htok⟩ := O.type.exists_tok? hi (by rw [length_type]; omega)
    refine ⟨t, htok, ?_⟩
    rcases mem_append.1 ht with ht | ht
    · obtain ⟨m, -, rfl⟩ := mem_map.1 ht
      exact m.isToken
    · obtain rfl := mem_singleton.1 ht
      rw [isTypePart, D.last.isToken, Bool.true_or]
  · rw [Nat.add_sub_cancel, isPunct_of_tok? O.last, isPunct_eq_false_of_isIdent (isOrdinary_iff.1 D.last.isToken).1]
  · cases hp : D.declarators.first.pointers with
    | nil =>
      have hn := L.name
      rw [Declarator.nameAt, hp] at hn
      exact ⟨_, hn, .inl Layout.isIdent_name⟩
    | cons m ms =>
      have hptrs := L.pointers
      rw [hp] at hptrs
      exact ⟨_, hptrs.tok?, .inr m.isToken⟩

end

end Opening

/-- The pass reads a declaration, lists its initializers and goes on after it. -/
theorem Declaration.passes (hb : Grammar.InFile b) (h : Rest src start (D.tokens ++ rest))
    (hst : (ofText src).declarationStart 0 start = start) :
    Outline.Passes (ofText src) b start (D.declarators.globals.map .global) b (start + (significant D.tokens).length) := by
  have O := h.opening
  have hbef : (ofText src).isPunct (start + D.type.length + 1 - 1) "=" = false := by
    rw [Nat.add_sub_cancel, isPunct_of_tok? O.last, isPunct_eq_false_of_isIdent (isOrdinary_iff.1 D.last.isToken).1]
  have hps := (O.typeTo.passes hb.isSearched).trans
    (passes_declarators (O.site hb) O.declarators (O.declarationStart.trans hst) (Nat.le_refl _) hbef)
  have hend : start + (significant D.tokens).length =
      start + D.type.length + 1 + (significant D.declarators.tokens).length := by
    rw [Declaration.tokens, significant_append, significant_append, significant_flatMap_led, D.last.significant_tokens,
      length_append, length_append, length_map, length_singleton]
    omega
  rw [hend]
  exact hps

/-- A declaration starts after a `;`, a brace, or nothing. -/
theorem declarationStart_self (hpv : ∀ t, F.prev? k = some t → t.isPunctOf [";", "\x7b", "\x7d"])
    (hcom : F.isPunct k "," = false) : F.declarationStart 0 k = k := by
  cases k with
  | zero => rfl
  | succ k =>
    cases ht : F.tok? k with
    | none => rw [declarationStart, ht]
    | some t =>
      obtain ⟨p, hp, hpun⟩ := any_eq_true.1 (hpv t ht)
      obtain ⟨start, rfl⟩ := eq_of_isPunct hpun
      rw [declarationStart_succ ht, hcom]
      simp only [mem_cons, not_mem_nil, or_false] at hp
      rcases hp with rfl | rfl | rfl <;> rfl

theorem getLast?_of_prev? {before : List Token} (h : tokenize src = before ++ rest)
    (ht : (ofText src).prev? (significant before).length = some t) : (significant before).getLast? = some t := by
  rw [getLast?_eq_getElem?]
  cases hlen : (significant before).length with
  | zero =>
    rw [hlen] at ht
    cases ht
  | succ k =>
    rw [hlen, prev?, tok?, tokens_ofText, h, filter_append, ← significant,
      getElem?_append_left (by omega)] at ht
    exact ht

end Whole

/-- A declaration of variables in a file is read as it is written. Where the pass comes to it at file scope, after a `;`, a
brace or nothing, it lists one initializer for each declarator that has one, in order, each with the last word of the type, the
name and the text; and it goes on after the `;`. -/
theorem Declaration.globals_ofSource {src : Text} {before after : List Token} {D : Declaration} {b : List Enclosing}
    {found : List OutlineItem} (hsrc : tokenize src = before ++ (D.tokens ++ after))
    (hbefore : ∀ t, (significant before).getLast? = some t → t.isPunctOf [";", "\x7b", "\x7d"] = true)
    (hb : Grammar.InFile b)
    (hfound : scan (ofText src) [] 0 =
      found ++ scan (ofText src) b (significant before).length) :
    scan (ofText src) [] 0 = found ++ (D.declarators.globals.map .global ++
        scan (ofText src) b (significant (before ++ D.tokens)).length) ∧
      (ofSource src).globals = (ofItems found).globals ++ (D.declarators.globals ++
        (ofItems (scan (ofText src) b (significant (before ++ D.tokens)).length)).globals) := by
  have h : Rest src (significant before).length (D.tokens ++ after) := ⟨before, hsrc, rfl⟩
  have hstart : (ofText src).declarationStart 0 (significant before).length = (significant before).length :=
    declarationStart_self (fun t ht => hbefore t (getLast?_of_prev? hsrc ht)) (h.opening.typeTo.isPunct_eq_false (by decide))
  have hscan := (Declaration.passes hb h hstart).scan_eq
  rw [← length_append, ← significant_append] at hscan
  rw [hscan] at hfound
  refine ⟨hfound, ?_⟩
  have hglobals (gs : List GlobalInit) : (ofItems (gs.map .global)).globals = gs := by
    simp [ofItems, filterMap_map]
  have happend (as bs : List OutlineItem) :
      (ofItems (as ++ bs)).globals = (ofItems as).globals ++ (ofItems bs).globals :=
    filterMap_append
  rw [ofSource, hfound, happend, happend, hglobals]

/-- Variables of the namespace in `namespaceOfLeds`. -/
def leds : Declaration where
  type := [{ lead := [⟨.space, " ", 26⟩], token := ⟨.ident, "ns", 27⟩ }, { token := ⟨.punct, "::", 29⟩ }]
  last := { token := ⟨.ident, "Led", 31⟩ }
  declarators :=
    .more {
      pointers := [{ lead := [⟨.space, " ", 34⟩], token := ⟨.punct, "*", 35⟩ }]
      name := { token := ⟨.ident, "a", 36⟩ }
      dims := [{
        opener := { token := ⟨.punct, "[", 37⟩ }
        inside := [⟨.number, "2", 38⟩]
        closer := ⟨.punct, "]", 39⟩ }]
      init := some (.equalsCurly { token := ⟨.punct, "=", 40⟩ } {
        opener := { token := ⟨.punct, "\x7b", 41⟩ }
        inside := [⟨.number, "1", 42⟩, ⟨.punct, ",", 43⟩, ⟨.ident, "g", 44⟩, ⟨.punct, "(", 45⟩, ⟨.number, "2", 46⟩,
          ⟨.punct, ")", 47⟩]
        closer := ⟨.punct, "\x7d", 48⟩ }) } ⟨⟨.punct, ",", 49⟩, rfl⟩ <|
    .more {
      name := { token := ⟨.ident, "b", 50⟩ }
      init := some (.round {
        opener := { token := ⟨.punct, "(", 51⟩ }
        inside := [⟨.string, "\"\x7d\"", 52⟩]
        closer := ⟨.punct, ")", 55⟩ })
      gap := [⟨.comment, "/**/", 56⟩] } ⟨⟨.punct, ",", 60⟩, rfl⟩ <|
    .more { name := { token := ⟨.ident, "c", 61⟩ } } ⟨⟨.punct, ",", 62⟩, rfl⟩ <|
    .more {
      name := { token := ⟨.ident, "d", 63⟩ }
      init := some (.equalsCall { token := ⟨.punct, "=", 64⟩ } { token := ⟨.ident, "Led", 65⟩ } {
        opener := { token := ⟨.punct, "(", 68⟩ }
        inside := [⟨.number, "3", 69⟩]
        closer := ⟨.punct, ")", 70⟩ }) } ⟨⟨.punct, ",", 71⟩, rfl⟩ <|
    .last {
      name := { token := ⟨.ident, "i", 72⟩ }
      init := some (.equals { token := ⟨.punct, "=", 73⟩ } {
        tokens := [⟨.number, "5", 74⟩, ⟨.punct, "+", 75⟩, ⟨.ident, "j", 76⟩, ⟨.punct, "(", 77⟩, ⟨.punct, "\x7b", 78⟩,
          ⟨.number, "6", 79⟩, ⟨.punct, "\x7d", 80⟩, ⟨.punct, ")", 81⟩] }) } ⟨⟨.punct, ";", 82⟩, rfl⟩

def namespaceOfLeds : Text :=
  "void f() \x7b \x7d namespace n \x7b ns::Led *a[2]=\x7b1,g(2)\x7d,b(\"\x7d\")/**/,c,d=Led(3),i=5+j(\x7b6\x7d); \x7d"

/-- A function and a namespace around a declaration with marks of other constructs in it. -/
theorem Declaration.globals_ofSource_namespace :
    tokenize namespaceOfLeds =
        (tokenize namespaceOfLeds).take 15 ++ (leds.tokens ++ [⟨.space, " ", 83⟩, ⟨.punct, "\x7d", 84⟩]) ∧
      (ofSource namespaceOfLeds).globals =
        [⟨"Led", "a", "1,g(2)"⟩, ⟨"Led", "b", "\"\x7d\""⟩, ⟨"Led", "d", "3"⟩, ⟨"Led", "i", "5+j(\x7b6\x7d)"⟩] := by
  have hsrc : tokenize namespaceOfLeds =
      (tokenize namespaceOfLeds).take 15 ++ (leds.tokens ++ [⟨.space, " ", 83⟩, ⟨.punct, "\x7d", 84⟩]) := by
    decide +kernel
  have hb : Grammar.InFile [.fileScope] := fun e he => (Option.some.inj he).symm
  have hfound : scan (ofText namespaceOfLeds) [] 0 =
      [.definition ⟨none, "f", false, [], none, " ", ⟨10, 11⟩⟩] ++ scan (ofText namespaceOfLeds)
        [.fileScope] (significant ((tokenize namespaceOfLeds).take 15)).length := by
    decide +kernel
  refine ⟨hsrc, ?_⟩
  rw [(Declaration.globals_ofSource hsrc (by decide +kernel) hb hfound).2]
  decide +kernel

/-- Dimensions that are not inert are read as declarators: the name before a comparison is set. -/
theorem Declaration.globals_ofSource_comparison :
    (ofSource "Led a[N == 2 ? 1 : 2] = \x7b3\x7d;").globals = [⟨"Led", "N", "= 2 ? 1 : 2] = \x7b3\x7d"⟩] := by
  decide +kernel

end Variable

end Declass
